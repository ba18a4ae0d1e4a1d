import Danmaku.Binary32.Arithmetic

/-!
# Decimal text of a number

A number is written with the fewest digits that read back as the same number; among those the
nearest, and of two equally near the larger. The search runs over ever finer decimal grids in
exact arithmetic and stops at the first grid that has a point in reach.
-/

namespace Danmaku

/-- The number `digits · 10 ^ exponent`. -/
structure Decimal where
  digits : Nat
  exponent : Int
deriving DecidableEq

/-- The interval of magnitudes that round to a given one, counted in quarters of a unit. -/
structure Reach where
  low : Nat
  high : Nat
  closed : Bool

namespace Reach

/-- Half a step on either side, but a quarter below a power of two, where the grid is twice as
fine. A tie rounds to an even multiple, so the ends belong to those. -/
def ofUnits (n : Nat) : Reach :=
  let step := Binary32.spacing n
  { low := if n = 2 ^ 23 * step ∧ 1 < step then 4 * n - step else 4 * n - 2 * step
    high := 4 * n + 2 * step
    closed := n / step % 2 = 0 }

/-- `num / den` quarters are in reach. -/
def contains (r : Reach) (num den : Nat) : Bool :=
  if r.closed then r.low * den ≤ num && num ≤ r.high * den
  else r.low * den < num && num < r.high * den

end Reach

namespace Decimal

/-- The finest grid of the search is `10 ^ -finest`, far below the smallest positive number. -/
def finest : Nat := 60

/-- The coarsest grid of the search is `10 ^ (coarsest - finest)`, above the largest number. -/
def coarsest : Nat := 99

/-- The quarters in one, times the fineness of the finest grid. -/
def quarters : Nat := 4 * Binary32.unitsPerOne

/-- The multiple of `10 ^ (k - finest)` in reach of `n` units that is nearest to them. -/
def onGrid? (n k : Nat) : Option Nat :=
  let step := 10 ^ k * quarters
  let value := 4 * n * 10 ^ finest
  let below := value / step
  let inReach (m : Nat) := (Reach.ofUnits n).contains (m * step) (10 ^ finest)
  match inReach below, inReach (below + 1) with
  | true, true =>
    if value - below * step < (below + 1) * step - value then some below else some (below + 1)
  | true, false => some below
  | false, true => some (below + 1)
  | false, false => none

def search (n : Nat) : Nat → Decimal
  | 0 => ⟨(onGrid? n 0).getD 0, -finest⟩
  | k + 1 =>
    match onGrid? n (k + 1) with
    | some digits => ⟨digits, (k + 1 : Int) - finest⟩
    | none => search n k

/-- The shortest decimal that reads back as `n` units. -/
def shortest (n : Nat) : Decimal := search n coarsest

/-- How a number is laid out: what follows a whole number, and the exponents of the leading digit
for which no power of ten is written. -/
structure Layout where
  afterWhole : String
  positional : Option (Int × Int)

/-- Never a power of ten, and whole numbers without a point. -/
def Layout.plain : Layout := ⟨"", none⟩

/-- Whole numbers end in `.0`; below `0.0001` and from `1e16` on a power of ten is written. -/
def Layout.pointed : Layout := ⟨".0", some (-4, 15)⟩

def zeros (n : Nat) : String := String.ofList (List.replicate n '0')

/-- All digits with the point in its place. -/
def positionalText (l : Layout) (d : Decimal) : String :=
  let ds := (toString d.digits).toList
  if 0 ≤ d.exponent then
    toString d.digits ++ zeros d.exponent.toNat ++ l.afterWhole
  else if 0 < ds.length + d.exponent then
    let whole := (ds.length + d.exponent).toNat
    String.ofList (ds.take whole) ++ "." ++ String.ofList (ds.drop whole)
  else
    "0." ++ zeros (-(ds.length + d.exponent)).toNat ++ toString d.digits

/-- The exponent of the leading digit. -/
def leading (d : Decimal) : Int := (toString d.digits).length - 1 + d.exponent

/-- One digit, the others after a point, and the power of ten. -/
def exponentText (d : Decimal) : String :=
  let ds := (toString d.digits).toList
  let fraction := if ds.length ≤ 1 then "" else "." ++ String.ofList (ds.drop 1)
  String.ofList (ds.take 1) ++ fraction ++ "e" ++ toString d.leading

def text (l : Layout) (d : Decimal) : String :=
  match l.positional with
  | some (low, high) =>
    if low ≤ d.leading ∧ d.leading ≤ high then positionalText l d else exponentText d
  | none => positionalText l d

end Decimal

namespace Binary32

def text (l : Decimal.Layout) : Binary32 → String
  | nan => "NaN"
  | infinite s => (if s then "-" else "") ++ "inf"
  | finite s n _ =>
    (if s then "-" else "") ++
      if n = 0 then "0" ++ l.afterWhole else (Decimal.shortest n).text l

instance : ToString Binary32 := ⟨text .plain⟩

end Binary32

end Danmaku
