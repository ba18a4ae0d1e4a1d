/-!
# Single-precision numbers

A finite number is a sign and a magnitude counted in units of 2⁻¹⁴⁹, the smallest positive
magnitude of the format, so every finite number is an exact integer. Its magnitude lies on a
grid: at most 24 significant bits, and below 2¹²⁸.

`nearest` rounds a quotient of naturals to that grid, ties to the even neighbour; it is the only
rounding in the library. `nearest_onGrid` says that it lands on the grid unless it overflows, and
`nearest_one` that a magnitude already there is kept.
-/

-- Powers of naturals are those of the core library, whatever else is imported beside this.
attribute [instance (2000), default_instance (20000)] instPowNat

namespace Danmaku

/-- The first magnitude, in units, that is too large to be finite. -/
def Binary32.overflow : Nat := 2 ^ 128 * 2 ^ 149

/-- The spacing of the grid around a magnitude of `n` units. -/
def Binary32.spacing (n : Nat) : Nat := 2 ^ (n.log2 - 23)

/-- A magnitude is on the grid when it is below the overflow and has at most 24 significant
bits. -/
def Binary32.OnGrid (n : Nat) : Prop := n < Binary32.overflow ∧ Binary32.spacing n ∣ n

/-- A single-precision number; the payload of a NaN is not kept. -/
inductive Binary32 where
  | nan
  | infinite (negative : Bool)
  | finite (negative : Bool) (units : Nat) (onGrid : Binary32.OnGrid units)
deriving DecidableEq

namespace Binary32

instance (n : Nat) : Decidable (OnGrid n) := inferInstanceAs (Decidable (_ ∧ _))

/-- The number of units in `1`. -/
def unitsPerOne : Nat := 2 ^ 149

/-- The grid magnitude nearest to `num / den` units; a tie goes to the even multiple of the
spacing. -/
def nearest (num den : Nat) : Nat :=
  let step := spacing (num / den)
  let multiple := num / (den * step)
  let rest := num % (den * step)
  if den * step < 2 * rest ∨ (den * step = 2 * rest ∧ multiple % 2 = 1) then
    (multiple + 1) * step
  else
    multiple * step

theorem spacing_pos (n : Nat) : 0 < spacing n := Nat.two_pow_pos _

/-- At most 2²⁴ steps of a power of two have at most 24 significant bits. -/
theorem spacing_dvd_mul {m e : Nat} (h : m ≤ 2 ^ 24) : spacing (m * 2 ^ e) ∣ m * 2 ^ e := by
  rcases Nat.eq_zero_or_pos m with rfl | pos
  · simp
  by_cases top : m = 2 ^ 24
  · subst top
    rw [← Nat.pow_add, spacing, Nat.log2_two_pow]
    exact Nat.pow_dvd_pow 2 (by omega)
  · have below : m * 2 ^ e < 2 ^ (24 + e) := by
      rw [Nat.pow_add]
      exact Nat.mul_lt_mul_of_pos_right (by omega) (Nat.two_pow_pos e)
    have nonzero : m * 2 ^ e ≠ 0 := Nat.ne_of_gt (Nat.mul_pos pos (Nat.two_pow_pos e))
    have log := (Nat.log2_lt nonzero).2 below
    exact Nat.dvd_trans (Nat.pow_dvd_pow 2 (by omega)) (Nat.dvd_mul_left _ _)

theorem div_spacing_lt (q : Nat) : q / spacing q < 2 ^ 24 := by
  rw [Nat.div_lt_iff_lt_mul (spacing_pos q), spacing, ← Nat.pow_add]
  exact Nat.lt_of_lt_of_le Nat.lt_log2_self (Nat.pow_le_pow_right (by decide) (by omega))

theorem spacing_dvd_nearest (num den : Nat) : spacing (nearest num den) ∣ nearest num den := by
  have small : num / (den * spacing (num / den)) < 2 ^ 24 := by
    rw [← Nat.div_div_eq_div_mul]
    exact div_spacing_lt _
  unfold nearest
  dsimp only
  split <;> exact spacing_dvd_mul (by omega)

theorem nearest_onGrid {num den : Nat} (h : nearest num den < overflow) :
    OnGrid (nearest num den) :=
  ⟨h, spacing_dvd_nearest num den⟩

/-- Rounding keeps a magnitude that is on the grid. -/
theorem nearest_one {n : Nat} (h : OnGrid n) : nearest n 1 = n := by
  obtain ⟨k, hk⟩ := h.2
  have pos := spacing_pos n
  unfold nearest
  simp only [Nat.div_one, Nat.one_mul]
  rw [Nat.mod_eq_zero_of_dvd h.2, if_neg (by omega), Nat.div_mul_cancel h.2]

/-- The number nearest to `num / den` units with the given sign; too large a magnitude becomes
infinite. -/
def ofRatio (negative : Bool) (num den : Nat) : Binary32 :=
  if h : nearest num den < overflow then
    .finite negative (nearest num den) (nearest_onGrid h)
  else
    .infinite negative

theorem ofRatio_one {s : Bool} {n : Nat} (h : OnGrid n) : ofRatio s n 1 = .finite s n h := by
  simp [ofRatio, nearest_one h, h.1]

/-- The number nearest to `z` units; `zeroNegative` is the sign of a zero. -/
def ofUnits (zeroNegative : Bool) (z : Int) : Binary32 :=
  ofRatio (if z = 0 then zeroNegative else z < 0) z.natAbs 1

theorem zero_onGrid : OnGrid 0 := by decide

/-- Positive zero. -/
def zero : Binary32 := .finite false 0 zero_onGrid

instance : Inhabited Binary32 := ⟨zero⟩

/-- The number nearest to a natural. -/
def ofNat (n : Nat) : Binary32 := ofRatio false (n * unitsPerOne) 1

/-- The number nearest to an integer. -/
def ofInt (z : Int) : Binary32 := ofUnits false (z * unitsPerOne)

/-- The number nearest to `digits / 10 ^ places`. -/
def ofDecimal (digits places : Nat) : Binary32 :=
  ofRatio false (digits * unitsPerOne) (10 ^ places)

instance (n : Nat) : OfNat Binary32 n := ⟨ofNat n⟩

/-- Neither an infinity nor a NaN. -/
def isFinite : Binary32 → Bool
  | finite .. => true
  | _ => false

/-- Either zero. -/
def isZero : Binary32 → Bool
  | finite _ units _ => units == 0
  | _ => false

/-- The sign bit; a NaN has none. -/
def isNegative : Binary32 → Bool
  | nan => false
  | infinite negative => negative
  | finite negative _ _ => negative

/-- The units of a finite number, with its sign. -/
def toUnits? : Binary32 → Option Int
  | finite negative units _ => some (if negative then -units else units)
  | _ => none

/-- A place on the line of integers, the infinities standing just beyond the finite numbers. A
NaN has none; both zeros have the same. -/
def place? : Binary32 → Option Int
  | nan => none
  | infinite negative => some (if negative then -overflow else overflow)
  | finite negative units _ => some (if negative then -units else units)

/-- The order of the places; a NaN is neither below nor above anything. -/
def lt (x y : Binary32) : Bool :=
  match x.place?, y.place? with
  | some a, some b => a < b
  | _, _ => false

/-- `x` is at or below `y`. -/
def le (x y : Binary32) : Bool :=
  match x.place?, y.place? with
  | some a, some b => a ≤ b
  | _, _ => false

/-- The larger of two numbers; a NaN gives way to the other one. -/
def maximum (x y : Binary32) : Binary32 :=
  match x.place?, y.place? with
  | none, _ => y
  | _, none => x
  | some a, some b => if a < b then y else x

end Binary32

end Danmaku
