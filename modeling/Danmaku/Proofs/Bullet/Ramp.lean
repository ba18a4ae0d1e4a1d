import Mathlib.Logic.Function.Iterate
import Danmaku.Bullet.Ramp

/-!
# The course of a change

Where a change is after a number of frames, and what its value has come to, in closed form: a
frame takes `Course.reached` to the next (`Course.advance_reached`), and what it sets, or leaves,
is the next of the values that `Course.come` lists (`Course.come_succ`). So a change that is
advanced over and over goes through `Course.reached` (`Course.start_after`), and it never leaves
its course (`Course.OnTrack.advance`).
-/

namespace Danmaku

namespace Course

/-- A change that was to take `duration` frames, after `n` of them. -/
def reached (duration n : Nat) : Course :=
  if n < duration then ⟨duration, n, true⟩ else ⟨duration, duration, false⟩

/-- What happens to a change at its frame `n`, the first of which is 1. -/
def progress? (duration n : Nat) : Option Progress :=
  if n < duration then some (.underway (.ofNat n / .ofNat duration))
  else if n = duration then some .arrived
  else none

/-- What a value that was `initial` when its change set off has come to after `n` frames. -/
def come {α : Type} (valueAt : Progress → α) (initial : α) (duration n : Nat) : α :=
  if n = 0 then initial
  else if n < duration then valueAt (.underway (.ofNat n / .ofNat duration))
  else valueAt .arrived

theorem start_eq_reached (duration : Nat) : start duration = reached (max duration 1) 0 := by
  rw [start, reached, if_pos (by omega)]

theorem reached_active (duration n : Nat) : (reached duration n).active = true ↔ n < duration := by
  by_cases underway : n < duration
  · simp [reached, underway]
  · simp [reached, underway]

theorem advance_reached (duration n : Nat) :
    (reached duration n).advance = (reached duration (n + 1), progress? duration (n + 1)) := by
  by_cases underway : n < duration
  · by_cases arrives : n + 1 = duration
    · simp [reached, advance, progress?, underway, arrives]
    · have goesOn : n + 1 < duration := by omega
      simp [reached, advance, progress?, underway, goesOn]
  · have past : ¬ n + 1 < duration := by omega
    have other : n + 1 ≠ duration := by omega
    simp [reached, advance, progress?, underway, past, other]

/-- What a frame sets is the next value; where it sets none the change is over, and the value
stays. -/
theorem come_succ {α : Type} (valueAt : Progress → α) (initial : α) {duration : Nat}
    (some : 0 < duration) (n : Nat) :
    ((progress? duration (n + 1)).map valueAt).getD (come valueAt initial duration n) =
      come valueAt initial duration (n + 1) := by
  have later : n + 1 ≠ 0 := by omega
  rw [come, come, progress?, if_neg later]
  by_cases underway : n + 1 < duration
  · rw [if_pos underway, if_pos underway]
    rfl
  rw [if_neg underway, if_neg underway]
  by_cases arrives : n + 1 = duration
  · rw [if_pos arrives]
    rfl
  · have begun : n ≠ 0 := by omega
    have past : ¬ n < duration := by omega
    rw [if_neg arrives, if_neg begun, if_neg past]
    rfl

theorem reached_eq (duration n : Nat) :
    reached duration n = ⟨duration, min n duration, n < duration⟩ := by
  by_cases underway : n < duration
  · have passed : min n duration = n := by omega
    simp [reached, underway, passed]
  · have all : min n duration = duration := by omega
    simp [reached, underway, all]

/-- A change after `n` more frames. -/
def after (c : Course) (n : Nat) : Course := (fun c => c.advance.1)^[n] c

theorem after_succ (c : Course) (n : Nat) : c.after (n + 1) = (c.after n).advance.1 :=
  Function.iterate_succ_apply' _ n c

theorem start_after (duration n : Nat) :
    (start duration).after n = reached (max duration 1) n := by
  induction n with
  | zero => exact start_eq_reached duration
  | succ n ih => rw [after_succ, ih, advance_reached]

/-- It takes a frame at least, it counts no more frames than it takes, and there are frames left
while it is active. A count of 32 bits is enough for it. -/
structure OnTrack (c : Course) : Prop where
  one_le : 1 ≤ c.duration
  frame_le : c.frame ≤ c.duration
  frame_lt : c.active = true → c.frame < c.duration
  small : c.duration < 2 ^ 32

theorem idle_onTrack : OnTrack idle := by
  constructor <;> decide

theorem start_onTrack {duration : Nat} (small : duration < 2 ^ 32) :
    (start duration).OnTrack where
  one_le := Nat.le_max_right duration 1
  frame_le := Nat.zero_le _
  frame_lt _ := Nat.le_max_right duration 1
  small := Nat.max_lt.2 ⟨small, by decide⟩

theorem OnTrack.advance {c : Course} (h : c.OnTrack) : c.advance.1.OnTrack := by
  unfold Course.advance
  split
  · split
    · refine ⟨h.one_le, Nat.le_refl _, fun active => ?_, h.small⟩
      cases active
    · rename_i early
      have left : c.frame + 1 < c.duration := Nat.not_le.1 early
      exact ⟨h.one_le, Nat.le_of_lt left, fun _ => left, h.small⟩
  · exact h

/-- The changes that a program can hold: one that is over, and those that it has made and taken
some frames further. -/
inductive Held : Course → Prop
  | idle : Held .idle
  | start (duration : UInt32) : Held (.start duration.toNat)
  | advance {c : Course} (h : Held c) : Held c.advance.1

theorem Held.onTrack {c : Course} (h : c.Held) : c.OnTrack := by
  induction h with
  | idle => exact idle_onTrack
  | start duration => exact start_onTrack duration.toNat_lt
  | advance _ ih => exact ih.advance

end Course

/-- What a change sets follows from the progress of its course. -/
theorem Ramp.advance_snd (r : Ramp) : r.advance.2 = r.course.advance.2.map r.valueAt := rfl

theorem Thrust.advance_snd (t : Thrust) : t.advance.2 = t.course.advance.2.map t.valueAt := rfl

/-- A change after `n` more frames. -/
def Ramp.after (r : Ramp) (n : Nat) : Ramp := (fun r => r.advance.1)^[n] r

theorem Ramp.after_eq (r : Ramp) (n : Nat) : r.after n = { r with course := r.course.after n } := by
  induction n with
  | zero => rfl
  | succ n ih =>
    have last : r.after (n + 1) = (r.after n).advance.1 := Function.iterate_succ_apply' _ n r
    rw [last, ih, Course.after_succ, advance]

/-- A change after `n` more frames. -/
def Thrust.after (t : Thrust) (n : Nat) : Thrust := (fun t => t.advance.1)^[n] t

theorem Thrust.after_eq (t : Thrust) (n : Nat) :
    t.after n = { t with course := t.course.after n } := by
  induction n with
  | zero => rfl
  | succ n ih =>
    have last : t.after (n + 1) = (t.after n).advance.1 := Function.iterate_succ_apply' _ n t
    rw [last, ih, Course.after_succ, advance]

end Danmaku
