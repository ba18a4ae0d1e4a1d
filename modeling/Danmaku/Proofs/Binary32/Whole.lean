import Danmaku.Binary32.Arithmetic

/-!
# Whole numbers in single precision

Up to 2²⁴ every natural is a number of the format, so comparing with it is exact.
-/

namespace Danmaku.Binary32

theorem whole_onGrid {n : Nat} (h : n ≤ 2 ^ 24) : OnGrid (n * unitsPerOne) := by
  refine ⟨?_, spacing_dvd_mul h⟩
  have below : n < 2 ^ 128 := Nat.lt_of_le_of_lt h (by decide)
  exact Nat.mul_lt_mul_of_pos_right below (Nat.two_pow_pos 149)

theorem ofNat_exact {n : Nat} (h : n ≤ 2 ^ 24) :
    ofNat n = .finite false (n * unitsPerOne) (whole_onGrid h) :=
  ofRatio_one (whole_onGrid h)

/-- A number that does not exceed a natural is no more than that when it is cut to one. -/
theorem toNatClipped_le {n limit : Nat} {x : Binary32} (h : n ≤ 2 ^ 24)
    (hx : (ofNat n).lt x = false) : x.toNatClipped limit ≤ n := by
  rw [ofNat_exact h] at hx
  cases x with
  | nan => exact Nat.zero_le n
  | infinite negative =>
    cases negative with
    | true => exact Nat.zero_le n
    | false =>
      have below := (whole_onGrid h).1
      simp only [lt, place?, Bool.false_eq_true, ↓reduceIte, decide_eq_false_iff_not] at hx
      omega
  | finite negative units _ =>
    cases negative with
    | true => exact Nat.zero_le n
    | false =>
      simp only [lt, place?, Bool.false_eq_true, ↓reduceIte, decide_eq_false_iff_not] at hx
      have quotient : units / unitsPerOne ≤ n :=
        Nat.div_le_of_le_mul (by rw [Nat.mul_comm]; omega)
      exact Nat.le_trans (Nat.min_le_left _ _) quotient

end Danmaku.Binary32
