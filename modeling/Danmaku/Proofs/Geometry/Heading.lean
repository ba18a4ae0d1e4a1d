import Danmaku.Geometry.Heading
import Danmaku.Proofs.Binary32.Units

/-!
# The range of headings

In units, to normalize a heading is integer arithmetic with a whole turn (`normalize_units`). So
whatever is normalized comes to lie within the range (`normalize_inRange`).
-/

namespace Danmaku

namespace Heading

open Binary32

/-- A whole turn, in units. -/
def turn : Int := (360 * unitsPerOne : Nat)

theorem turn_pos : 0 < turn := Int.natCast_pos.2 (Nat.mul_pos (by decide) (Nat.two_pow_pos 149))

theorem toUnits?_turn : (360 : Binary32).toUnits? = some turn := toUnits?_ofNat (by decide)

theorem toUnits?_neg_turn : (-360 : Binary32).toUnits? = some (-turn) :=
  toUnits?_neg toUnits?_turn

theorem normalize_of_none {x : Binary32} (h : x.toUnits? = none) : normalize x = 0 := by
  simp [normalize, isFinite_of_none h]

theorem normalize_units {x : Binary32} {z : Int} (h : x.toUnits? = some z) :
    (normalize x).toUnits? = some
      (if turn < z then (if z.tmod turn = 0 then turn else z.tmod turn)
        else if z ≤ -turn then z.tmod turn
        else z) := by
  have rest : (x % 360).toUnits? = some (z.tmod turn) :=
    toUnits?_mod h toUnits?_turn (by have := turn_pos; omega)
  simp only [normalize, isFinite_of_units h, lt_units toUnits?_turn h, le_units h toUnits?_neg_turn,
    isZero_units rest, Bool.not_true, Bool.false_eq_true, decide_eq_true_eq, ↓reduceIte]
  split
  · split
    · exact toUnits?_turn
    · exact rest
  · split
    · exact rest
    · exact h

/-- Above -360, and not above 360. -/
structure InRange (x : Binary32) : Prop where
  finite : x.isFinite = true
  above : (-360 : Binary32).lt x = true
  below : x.le 360 = true

theorem inRange_of_units {x : Binary32} {z : Int} (h : x.toUnits? = some z) (above : -turn < z)
    (below : z ≤ turn) : InRange x where
  finite := isFinite_of_units h
  above := by rw [lt_units toUnits?_neg_turn h, decide_eq_true above]
  below := by rw [le_units h toUnits?_turn, decide_eq_true below]

theorem zero_inRange : InRange 0 := by
  have pos := turn_pos
  exact inRange_of_units (toUnits?_ofNat (n := 0) (by decide)) (by omega) (by omega)

/-- Whatever is normalized, the result is in the range. -/
theorem normalize_inRange (x : Binary32) : InRange (normalize x) := by
  cases units : x.toUnits? with
  | none =>
    rw [normalize_of_none units]
    exact zero_inRange
  | some z =>
    have pos := turn_pos
    have above : -turn < z.tmod turn := Int.lt_tmod_of_pos z pos
    have below : z.tmod turn < turn := Int.tmod_lt_of_pos z pos
    apply inRange_of_units (normalize_units units)
    · split
      · split <;> omega
      · split <;> omega
    · split
      · split <;> omega
      · split <;> omega

/-- What is in the range is left as it is. -/
theorem normalize_of_inRange {x : Binary32} (h : InRange x) : normalize x = x := by
  cases units : x.toUnits? with
  | none =>
    have none := isFinite_of_none units
    rw [h.finite] at none
    cases none
  | some z =>
    have above := h.above
    have below := h.below
    rw [lt_units toUnits?_neg_turn units, decide_eq_true_iff] at above
    rw [le_units units toUnits?_turn, decide_eq_true_iff] at below
    simp only [normalize, h.finite, lt_units toUnits?_turn units, le_units units toUnits?_neg_turn,
      decide_eq_false (Int.not_lt.2 below), decide_eq_false (Int.not_le.2 above), Bool.not_true,
      Bool.false_eq_true, ↓reduceIte]

theorem normalize_normalize (x : Binary32) : normalize (normalize x) = normalize x :=
  normalize_of_inRange (normalize_inRange x)

end Heading

end Danmaku
