import Danmaku.Proofs.Binary32.Units

/-!
# Rounding between the numbers of the format

Rounding does not carry a magnitude past one that is on the grid (`nearest_le`, `le_nearest`). So
a natural that is rounded stays on its side of every number of the format.
-/

namespace Danmaku.Binary32

/-- Rounding goes to the multiple of the spacing below, or to the next one if that is not exact. -/
theorem nearest_cases (n : Nat) :
    nearest n 1 = n / spacing n * spacing n ∨
      (nearest n 1 = (n / spacing n + 1) * spacing n ∧ ¬ spacing n ∣ n) := by
  unfold nearest
  simp only [Nat.div_one, Nat.one_mul]
  split
  · rename_i up
    right
    refine ⟨rfl, fun exact_ => ?_⟩
    have pos := spacing_pos n
    have none := Nat.mod_eq_zero_of_dvd exact_
    omega
  · exact .inl rfl

theorem le_div_mul {d a n : Nat} (dvd : d ∣ a) (h : a ≤ n) : a ≤ n / d * d := by
  obtain ⟨k, rfl⟩ := dvd
  rcases Nat.eq_zero_or_pos d with rfl | pos
  · simp
  · rw [Nat.mul_comm d k] at h ⊢
    exact Nat.mul_le_mul_right d ((Nat.le_div_iff_mul_le pos).2 h)

theorem nearest_le {n g : Nat} (grid : OnGrid g) (h : n ≤ g) : nearest n 1 ≤ g := by
  have dvd : spacing n ∣ g := Nat.dvd_trans (spacing_mono (log2_mono h)) grid.2
  rcases nearest_cases n with eq | ⟨eq, inexact⟩
  · rw [eq]
    exact Nat.le_trans (Nat.div_mul_le_self n _) h
  · have ne : n ≠ g := fun same => inexact (same ▸ grid.2)
    have strict : n < g := by omega
    obtain ⟨k, rfl⟩ := dvd
    rw [Nat.mul_comm] at strict ⊢
    have below : n / spacing n < k := (Nat.div_lt_iff_lt_mul (spacing_pos n)).2 strict
    rw [eq]
    exact Nat.mul_le_mul_right _ below

theorem le_nearest {n g : Nat} (grid : OnGrid g) (h : g ≤ n) : g ≤ nearest n 1 := by
  have low : n / spacing n * spacing n ≤ nearest n 1 := by
    rcases nearest_cases n with eq | ⟨eq, -⟩
    · exact Nat.le_of_eq eq.symm
    · rw [eq]
      exact Nat.mul_le_mul_right _ (Nat.le_succ _)
  refine Nat.le_trans ?_ low
  by_cases same : n.log2 ≤ g.log2
  · exact le_div_mul (Nat.dvd_trans (spacing_mono same) grid.2) h
  · -- A power of two, which is a multiple of the spacing, lies between the two.
    have nonzero : n ≠ 0 := by
      rintro rfl
      simp at same
    have dvd : spacing n ∣ 2 ^ n.log2 := Nat.pow_dvd_pow 2 (by omega)
    have below : g < 2 ^ n.log2 :=
      Nat.lt_of_lt_of_le Nat.lt_log2_self (Nat.pow_le_pow_right (by decide) (by omega))
    exact Nat.le_trans (Nat.le_of_lt below) (le_div_mul dvd (Nat.log2_self_le nonzero))

/-- A natural of 64 bits is rounded to a finite number. -/
theorem ofNat_finite {n : Nat} (h : n ≤ 2 ^ 64) :
    ∃ onGrid, ofNat n = .finite false (nearest (n * unitsPerOne) 1) onGrid := by
  have grid : OnGrid (2 ^ 64 * unitsPerOne) := by decide +kernel
  have below := nearest_le grid (Nat.mul_le_mul_right unitsPerOne h)
  have small := Nat.lt_of_le_of_lt below grid.1
  exact ⟨nearest_onGrid small, dif_pos small⟩

end Danmaku.Binary32
