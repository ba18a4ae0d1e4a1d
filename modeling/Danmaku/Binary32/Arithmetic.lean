import Danmaku.Binary32.Basic

/-!
# Arithmetic on single-precision numbers

Each operation computes its exact result and rounds it once. The remainder needs no rounding:
`mod_onGrid` says that it is already on the grid.
-/

namespace Danmaku.Binary32

protected def neg : Binary32 → Binary32
  | nan => nan
  | infinite s => infinite (!s)
  | finite s n h => finite (!s) n h

/-- An exact sum of zero is positive unless both operands are negative zeros. -/
protected def add : Binary32 → Binary32 → Binary32
  | nan, _ => nan
  | _, nan => nan
  | infinite s, infinite t => if s = t then infinite s else nan
  | infinite s, finite .. => infinite s
  | finite .., infinite t => infinite t
  | finite s m _, finite t n _ =>
    ofUnits (s && t) ((if s then -(m : Int) else m) + (if t then -(n : Int) else n))

protected def sub (x y : Binary32) : Binary32 := x.add y.neg

protected def mul : Binary32 → Binary32 → Binary32
  | nan, _ => nan
  | _, nan => nan
  | infinite s, infinite t => infinite (s != t)
  | infinite s, finite t n _ => if n = 0 then nan else infinite (s != t)
  | finite s m _, infinite t => if m = 0 then nan else infinite (s != t)
  | finite s m _, finite t n _ => ofRatio (s != t) (m * n) unitsPerOne

/-- A non-zero number divided by zero is infinite. -/
protected def div : Binary32 → Binary32 → Binary32
  | nan, _ => nan
  | _, nan => nan
  | infinite _, infinite _ => nan
  | infinite s, finite t _ _ => infinite (s != t)
  | finite s _ _, infinite t => finite (s != t) 0 zero_onGrid
  | finite s m _, finite t n _ =>
    if n = 0 then
      if m = 0 then nan else infinite (s != t)
    else
      ofRatio (s != t) (m * unitsPerOne) n

theorem spacing_mono {m n : Nat} (h : m.log2 ≤ n.log2) : spacing m ∣ spacing n :=
  Nat.pow_dvd_pow 2 (by omega)

theorem log2_mono {m n : Nat} (h : m ≤ n) : m.log2 ≤ n.log2 := by
  rcases Nat.eq_zero_or_pos m with rfl | pos
  · simp
  · exact (Nat.le_log2 (by omega)).2 (Nat.le_trans (Nat.log2_self_le (by omega)) h)

theorem mod_onGrid {m n : Nat} (hm : OnGrid m) (hn : OnGrid n) (pos : n ≠ 0) :
    OnGrid (m % n) := by
  by_cases small : m < n
  · rwa [Nat.mod_eq_of_lt small]
  · have below := Nat.mod_lt m (Nat.pos_of_ne_zero pos)
    refine ⟨Nat.lt_trans below hn.1, ?_⟩
    refine Nat.dvd_trans (spacing_mono (log2_mono (Nat.le_of_lt below))) ?_
    rw [Nat.dvd_mod_iff hn.2]
    exact Nat.dvd_trans (spacing_mono (log2_mono (by omega))) hm.2

/-- The exact remainder of the division that rounds toward zero; it has the sign of the
dividend. -/
protected def mod : Binary32 → Binary32 → Binary32
  | nan, _ => nan
  | _, nan => nan
  | infinite _, _ => nan
  | finite s m hm, infinite _ => finite s m hm
  | finite s m hm, finite _ n hn =>
    if h : n = 0 then nan else finite s (m % n) (mod_onGrid hm hn h)

instance : Neg Binary32 := ⟨Binary32.neg⟩
instance : Add Binary32 := ⟨Binary32.add⟩
instance : Sub Binary32 := ⟨Binary32.sub⟩
instance : Mul Binary32 := ⟨Binary32.mul⟩
instance : Div Binary32 := ⟨Binary32.div⟩
instance : Mod Binary32 := ⟨Binary32.mod⟩

/-- The nearest whole number; a half goes away from zero. -/
def round : Binary32 → Binary32
  | finite s n _ =>
    ofRatio s ((2 * n + unitsPerOne) / (2 * unitsPerOne) * unitsPerOne) 1
  | x => x

/-- The whole part, clipped to the naturals up to `limit`; a NaN gives `0`. -/
def toNatClipped (limit : Nat) : Binary32 → Nat
  | nan => 0
  | infinite s => if s then 0 else limit
  | finite s n _ => if s then 0 else min (n / unitsPerOne) limit

end Danmaku.Binary32
