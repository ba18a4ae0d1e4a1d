import Danmaku.Proofs.Geometry.Heading

/-!
# Turn by turn

To normalize a heading takes one remainder. The loop that takes whole turns off a heading, or adds
them, one at a time and exactly, comes to the same (`normalize_unwinds`): what it ends with is
known by a few properties (`Unwound.unique`), which the remainder has as well.
-/

namespace Danmaku.Heading

open Binary32

/-- Takes a turn off a heading above the range, and adds one to a heading below it, until it lies
in the range. Headings are in units. -/
def unwind (z : Int) : Int :=
  if turn < z then unwind (z - turn)
  else if z ≤ -turn then unwind (z + turn)
  else z
termination_by z.natAbs
decreasing_by
  · have pos := turn_pos
    omega
  · have pos := turn_pos
    omega

/-- `r` lies in the range, whole turns away from `z`, or is `z` if that lies in the range. It is on
the same side of zero; only from below it may come to zero. -/
structure Unwound (z r : Int) : Prop where
  above : -turn < r
  below : r ≤ turn
  turns : ∃ k : Int, z = r + k * turn
  kept : -turn < z → z ≤ turn → r = z
  pos : 0 < z → 0 < r
  nonpos : z < 0 → r ≤ 0

theorem mul_turn_cases (k : Int) : k * turn = 0 ∨ turn ≤ k * turn ∨ k * turn ≤ -turn := by
  have pos := turn_pos
  rcases Int.lt_trichotomy k 0 with below | rfl | above
  · right; right
    have := Int.mul_le_mul_of_nonneg_right (show k ≤ -1 by omega) (Int.le_of_lt pos)
    omega
  · left
    exact Int.zero_mul turn
  · right; left
    have := Int.mul_le_mul_of_nonneg_right (show 1 ≤ k by omega) (Int.le_of_lt pos)
    omega

theorem Unwound.unique {z r r' : Int} (h : Unwound z r) (h' : Unwound z r') : r = r' := by
  by_cases inside : -turn < z ∧ z ≤ turn
  · rw [h.kept inside.1 inside.2, h'.kept inside.1 inside.2]
  -- Outside of the range both are on the same side of zero, so less than a turn apart.
  obtain ⟨k, eq⟩ := h.turns
  obtain ⟨k', eq'⟩ := h'.turns
  have apart : (k' - k) * turn = r - r' := by
    rw [Int.sub_mul]
    omega
  have cases := mul_turn_cases (k' - k)
  rw [apart] at cases
  have bounds := And.intro h.above h.below
  have bounds' := And.intro h'.above h'.below
  by_cases beyond : turn < z
  · have positive : 0 < z := Int.lt_trans turn_pos beyond
    have side := h.pos positive
    have side' := h'.pos positive
    omega
  · have negative : z < 0 := by
      have pos := turn_pos
      omega
    have side := h.nonpos negative
    have side' := h'.nonpos negative
    omega

/-- What the loop ends with. -/
theorem unwind_unwound (z : Int) : Unwound z (unwind z) := by
  have pos := turn_pos
  fun_induction unwind z with
  | case1 z beyond ih =>
    obtain ⟨k, eq⟩ := ih.turns
    refine ⟨ih.above, ih.below, ⟨k + 1, ?_⟩, ?_, fun _ => ih.pos (by omega), ?_⟩
    · rw [Int.add_mul]
      omega
    · omega
    · omega
  | case2 z _ under ih =>
    obtain ⟨k, eq⟩ := ih.turns
    refine ⟨ih.above, ih.below, ⟨k - 1, ?_⟩, ?_, ?_, fun _ => ?_⟩
    · rw [Int.sub_mul]
      omega
    · omega
    · omega
    · by_cases zero : z + turn = 0
      · have kept := ih.kept (by omega) (by omega)
        omega
      · exact ih.nonpos (by omega)
  | case3 z beyond under =>
    refine ⟨by omega, by omega, ⟨0, ?_⟩, fun _ _ => rfl, id, Int.le_of_lt⟩
    rw [Int.zero_mul, Int.add_zero]

/-- The remainder has the same properties. -/
theorem normalize_unwound {x : Binary32} {z : Int} (h : x.toUnits? = some z) :
    ∃ r, (normalize x).toUnits? = some r ∧ Unwound z r := by
  refine ⟨_, normalize_units h, ?_⟩
  have pos := turn_pos
  have above : -turn < z.tmod turn := Int.lt_tmod_of_pos z pos
  have below : z.tmod turn < turn := Int.tmod_lt_of_pos z pos
  have division : turn * z.tdiv turn + z.tmod turn = z := Int.mul_tdiv_add_tmod z turn
  have turns : z = z.tmod turn + z.tdiv turn * turn := by
    rw [Int.mul_comm (z.tdiv turn)]
    omega
  by_cases beyond : turn < z
  · have nonneg : 0 ≤ z.tmod turn := Int.tmod_nonneg turn (by omega)
    rw [if_pos beyond]
    by_cases whole : z.tmod turn = 0
    · rw [if_pos whole]
      refine ⟨by omega, Int.le_refl _, ⟨z.tdiv turn - 1, ?_⟩, by omega, by omega, by omega⟩
      rw [Int.sub_mul]
      omega
    · rw [if_neg whole]
      exact ⟨above, by omega, ⟨_, turns⟩, by omega, by omega, by omega⟩
  rw [if_neg beyond]
  by_cases under : z ≤ -turn
  · have mirrored : 0 ≤ (-z).tmod turn := Int.tmod_nonneg turn (by omega)
    rw [Int.neg_tmod] at mirrored
    rw [if_pos under]
    exact ⟨above, by omega, ⟨_, turns⟩, by omega, by omega, by omega⟩
  · rw [if_neg under]
    exact ⟨by omega, by omega, ⟨0, by omega⟩, fun _ _ => rfl, id, Int.le_of_lt⟩

/-- **To normalize is to go round turn by turn.** What a finite heading is normalized to is exactly
what the loop ends with. It lies in the range, whole turns away from the heading and on its side of
zero, and it is the heading itself if that lies in the range. What is not finite is normalized to
zero, and whatever has been normalized stays as it is. -/
theorem normalize_unwinds (x : Binary32) :
    (∀ z, x.toUnits? = some z →
      (normalize x).toUnits? = some (unwind z) ∧ Unwound z (unwind z) ∧
        (-turn < z → z ≤ turn → normalize x = x)) ∧
    (x.isFinite = false → normalize x = 0) ∧
    normalize (normalize x) = normalize x := by
  refine ⟨fun z units => ⟨?_, unwind_unwound z, fun above below => ?_⟩, fun infinite => ?_, ?_⟩
  · obtain ⟨r, eq, unwound⟩ := normalize_unwound units
    rw [eq, unwound.unique (unwind_unwound z)]
  · exact normalize_of_inRange (inRange_of_units units above below)
  · rw [normalize, infinite]
    rfl
  · exact normalize_normalize x

/-- A positive number of whole turns comes to one turn, and one turn back to none. -/
theorem whole_turns_unwind :
    (1080 : Binary32).toUnits? = some (3 * turn) ∧ unwind (3 * turn) = turn ∧
      (-360 : Binary32).toUnits? = some (-turn) ∧ unwind (-turn) = 0 := by
  have thrice : (1080 : Binary32).toUnits? = some (3 * turn) := by decide +kernel
  have unwound := ((normalize_unwinds 1080).1 (3 * turn) thrice).1
  have under := ((normalize_unwinds (-360)).1 (-turn) toUnits?_neg_turn).1
  have full : (normalize 1080).toUnits? = some turn := by decide +kernel
  have none : (normalize (-360)).toUnits? = some 0 := by decide +kernel
  exact ⟨thrice, Option.some.inj (unwound.symm.trans full), toUnits?_neg_turn,
    Option.some.inj (under.symm.trans none)⟩

end Danmaku.Heading
