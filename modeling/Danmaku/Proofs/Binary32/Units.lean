import Danmaku.Proofs.Binary32.Whole

/-!
# Units

A finite number is its units, with its sign: comparisons and remainders are those of integers.
-/

namespace Danmaku.Binary32

theorem toUnits?_ofNat {n : Nat} (h : n ≤ 2 ^ 24) :
    (ofNat n).toUnits? = some ((n * unitsPerOne : Nat) : Int) := by
  rw [ofNat_exact h]
  rfl

theorem toUnits?_neg {x : Binary32} {a : Int} (h : x.toUnits? = some a) :
    (-x).toUnits? = some (-a) := by
  cases x with
  | nan => cases h
  | infinite => cases h
  | finite negative units onGrid =>
    change (Binary32.finite (!negative) units onGrid).toUnits? = some (-a)
    simp only [toUnits?, Option.some.injEq] at h ⊢
    cases negative <;> simp at h ⊢ <;> omega

theorem isFinite_of_units {x : Binary32} {a : Int} (h : x.toUnits? = some a) :
    x.isFinite = true := by
  cases x with
  | nan => cases h
  | infinite => cases h
  | finite => rfl

theorem isFinite_of_none {x : Binary32} (h : x.toUnits? = none) : x.isFinite = false := by
  cases x with
  | nan => rfl
  | infinite => rfl
  | finite => cases h

/-- The place of a finite number is its units. -/
theorem place?_units {x : Binary32} {a : Int} (h : x.toUnits? = some a) : x.place? = some a := by
  cases x with
  | nan => cases h
  | infinite => cases h
  | finite => exact h

theorem lt_units {x y : Binary32} {a b : Int} (hx : x.toUnits? = some a)
    (hy : y.toUnits? = some b) : x.lt y = decide (a < b) := by
  rw [lt, place?_units hx, place?_units hy]

theorem le_units {x y : Binary32} {a b : Int} (hx : x.toUnits? = some a)
    (hy : y.toUnits? = some b) : x.le y = decide (a ≤ b) := by
  rw [le, place?_units hx, place?_units hy]

theorem isZero_units {x : Binary32} {a : Int} (h : x.toUnits? = some a) :
    x.isZero = decide (a = 0) := by
  cases x with
  | nan => cases h
  | infinite => cases h
  | finite negative units onGrid =>
    simp only [toUnits?, Option.some.injEq] at h
    have same : (units = 0) ↔ a = 0 := by
      cases negative <;> simp at h <;> omega
    by_cases zero : units = 0
    · simp [isZero, zero, same.1 zero]
    · have nonzero : a ≠ 0 := fun eq => zero (same.2 eq)
      simp [isZero, zero, nonzero]

/-- The remainder is that of the division towards zero. -/
theorem toUnits?_mod {x y : Binary32} {a b : Int} (hx : x.toUnits? = some a)
    (hy : y.toUnits? = some b) (nonzero : b ≠ 0) : (x % y).toUnits? = some (a.tmod b) := by
  cases x with
  | nan => cases hx
  | infinite => cases hx
  | finite negative m hm =>
    cases y with
    | nan => cases hy
    | infinite => cases hy
    | finite negative' n hn =>
      simp only [toUnits?, Option.some.injEq] at hx hy
      subst hx hy
      have divisor : n ≠ 0 := by
        intro zero
        simp [zero] at nonzero
      have mod : (Binary32.finite negative m hm % Binary32.finite negative' n hn : Binary32) =
          .finite negative (m % n) (mod_onGrid hm hn divisor) := dif_neg divisor
      have remainder : ((m % n : Nat) : Int) = (m : Int).tmod n := Int.ofNat_tmod m n
      rw [mod]
      cases negative <;> cases negative' <;>
        simp only [toUnits?, remainder, Int.neg_tmod, Int.tmod_neg, Bool.false_eq_true, ↓reduceIte]

end Danmaku.Binary32
