import Danmaku.Binary32.Bits
import Danmaku.Proofs.Binary32.Integer

/-!
# Overflow

A sum of finite numbers is rounded to infinity from 2¹²⁸ - 2¹⁰³ on, which is half a step of the
grid above the greatest number, and is finite below that (`add_isFinite_iff`).
-/

namespace Danmaku.Binary32

/-- The magnitude of the greatest number, in units. -/
def greatest : Nat := (2 ^ 128 - 2 ^ 104) * unitsPerOne

/-- The least magnitude that is rounded to infinity. -/
def ceiling : Nat := (2 ^ 128 - 2 ^ 103) * unitsPerOne

theorem overflow_eq : overflow = 2 ^ 128 * unitsPerOne := rfl

theorem greatest_onGrid : OnGrid greatest := by decide +kernel

theorem add_le_log2 {n a b : Nat} (h : 2 ^ a * 2 ^ b ≤ n) : a + b ≤ n.log2 := by
  have pos : 0 < 2 ^ a * 2 ^ b := Nat.mul_pos (Nat.two_pow_pos a) (Nat.two_pow_pos b)
  rw [Nat.le_log2 (by omega), Nat.pow_add]
  exact h

theorem mul_le_two_pow {a b k : Nat} (h : a + b ≤ k) : 2 ^ a * 2 ^ b ≤ 2 ^ k := by
  rw [← Nat.pow_add]
  exact Nat.pow_le_pow_right (by decide) h

/-- The step of the grid below the overflow. -/
theorem spacing_of_greatest_le {n : Nat} (high : greatest ≤ n) (below : n < overflow) :
    spacing n = 2 ^ 104 * unitsPerOne := by
  have pos : 0 < unitsPerOne := Nat.two_pow_pos 149
  rw [greatest] at high
  have nonzero : n ≠ 0 := by omega
  have half : 2 ^ 127 * unitsPerOne ≤ n := by omega
  have low : 127 + 149 ≤ n.log2 := add_le_log2 half
  have up : n.log2 < 128 + 149 := log2_lt_add nonzero below
  have log : n.log2 - 23 = 104 + 149 := by omega
  rw [spacing, log, Nat.pow_add]
  rfl

/-- Above the greatest number rounding goes back to it, or overflows. -/
theorem nearest_of_greatest_le {n : Nat} (high : greatest ≤ n) (below : n < overflow) :
    nearest n 1 = if n < ceiling then greatest else overflow := by
  have pos : 0 < unitsPerOne := Nat.two_pow_pos 149
  have step := spacing_of_greatest_le high below
  rw [overflow_eq] at below
  rw [greatest] at high
  have multiple : n / spacing n = 2 ^ 24 - 1 := by
    rw [step]
    apply Nat.div_eq_of_lt_le
    · omega
    · omega
  have rest := Nat.div_add_mod n (spacing n)
  rw [multiple, step] at rest
  unfold nearest
  simp only [Nat.div_one, Nat.one_mul]
  rw [multiple, step, ceiling, greatest, overflow_eq]
  generalize n % (2 ^ 104 * unitsPerOne) = r at rest ⊢
  by_cases early : n < (2 ^ 128 - 2 ^ 103) * unitsPerOne
  · have down : ¬ (2 ^ 104 * unitsPerOne < 2 * r ∨
        2 ^ 104 * unitsPerOne = 2 * r ∧ (2 ^ 24 - 1) % 2 = 1) := by omega
    rw [if_pos early, if_neg down]
    omega
  · -- At the ceiling itself the multiple below is odd, so the tie goes up.
    have up : 2 ^ 104 * unitsPerOne < 2 * r ∨
        2 ^ 104 * unitsPerOne = 2 * r ∧ (2 ^ 24 - 1) % 2 = 1 := by omega
    rw [if_neg early, if_pos up]
    omega

/-- Rounding to the grid overflows from the ceiling on. -/
theorem nearest_lt_overflow_iff (n : Nat) : nearest n 1 < overflow ↔ n < ceiling := by
  have pos : 0 < unitsPerOne := Nat.two_pow_pos 149
  have order : greatest < ceiling ∧ ceiling < overflow := by
    rw [greatest, ceiling, overflow_eq]
    omega
  by_cases low : n < greatest
  · have rounded := nearest_le greatest_onGrid (Nat.le_of_lt low)
    omega
  by_cases below : n < overflow
  · rw [nearest_of_greatest_le (Nat.not_lt.1 low) below]
    split <;> omega
  · -- A power of two, which is a multiple of the spacing, lies between the overflow and `n`.
    have nonzero : n ≠ 0 := by omega
    have log : 128 + 149 ≤ n.log2 := add_le_log2 (Nat.not_lt.1 below)
    have high : overflow ≤ 2 ^ n.log2 := mul_le_two_pow log
    have dvd : spacing n ∣ 2 ^ n.log2 := Nat.pow_dvd_pow 2 (by omega)
    have kept := le_div_mul dvd (Nat.log2_self_le nonzero)
    have rounded : n / spacing n * spacing n ≤ nearest n 1 := by
      rcases nearest_cases n with eq | ⟨eq, -⟩
      · exact Nat.le_of_eq eq.symm
      · rw [eq]
        exact Nat.mul_le_mul_right _ (Nat.le_succ _)
    omega

theorem ofUnits_isFinite_iff (s : Bool) (z : Int) :
    (ofUnits s z).isFinite = true ↔ z.natAbs < ceiling := by
  rw [← nearest_lt_overflow_iff]
  unfold ofUnits ofRatio
  split
  · rename_i small
    exact iff_of_true rfl small
  · rename_i large
    exact iff_of_false Bool.false_ne_true large

/-- The units of a finite number, with its sign. -/
def exact (x : Binary32) : Int := x.toUnits?.getD 0

theorem toUnits?_exact {x : Binary32} (finite : x.isFinite = true) :
    x.toUnits? = some x.exact := by
  cases x with
  | nan => cases finite
  | infinite => cases finite
  | finite => rfl

/-- The exact sum of two finite numbers is below the ceiling. -/
def Fits (x y : Binary32) : Prop := (x.exact + y.exact).natAbs < ceiling

instance (x y : Binary32) : Decidable (x.Fits y) := inferInstanceAs (Decidable (_ < _))

theorem add_isFinite_iff {x y : Binary32} (hx : x.isFinite = true) (hy : y.isFinite = true) :
    (x + y).isFinite = true ↔ x.Fits y := by
  obtain ⟨s, sum⟩ := add_units (toUnits?_exact hx) (toUnits?_exact hy)
  rw [sum, ofUnits_isFinite_iff, Fits]

end Danmaku.Binary32
