import Danmaku.Proofs.Bullet.Quantity

/-!
# Axes that are not given

An `accel` without one of its axes takes the component that the bullet has on it as what the
acceleration changes to. But every change of an acceleration begins at none: on the axis that is
not given the acceleration falls, and grows back to what it was in the course of the change
(`axis_grows_back`). Only a change within one frame leaves it alone.
-/

namespace Danmaku

def Axis.quantity : Axis → Quantity
  | horizontal => .horizontal
  | vertical => .vertical

namespace Exec

variable {s : Setup}

theorem component_missing {axis : Axis} {command : Element}
    (missing : command.child? axis.child = none) (current : Binary32) (p : Parameters) :
    component axis command current p = pure current := by
  rw [component, missing]

/-- The duration that an `accel` reads, after the components. -/
def accelFrames (command term : Element) (b : Bullet) (p : Parameters) : Exec Nat := do
  let (h, v) := b.plane.components b.acceleration
  let _ ← component .horizontal command h p
  let _ ← component .vertical command v p
  frames term p

theorem one_le_accelFrames (command term : Element) (b : Bullet) (p : Parameters) (m : Memory) :
    1 ≤ (accelFrames command term b p s m).value := by
  simp only [accelFrames, bind_run]
  exact one_le_frames term p s _

theorem accel_run {command term : Element} (timed : command.child? .term = some term) (b : Bullet)
    (p : Parameters) (m : Memory) :
    (accel command b p s m).value =
      let (h, v) := b.plane.components b.acceleration
      let first := component .horizontal command h p s m
      let second := component .vertical command v p s first.memory
      .accelerate (.make first.value second.value (accelFrames command term b p s m).value) := by
  simp only [accel, accelFrames, timed, bind_run, pure_run]

end Exec

/-- On an axis that is not given, the command has a change set off towards what there is. -/
theorem Engine.step_missing (axis : Axis) {e : Engine} {b : Bullet} {top : Cursor}
    {rest : List Cursor} {command term : Element} (runs : b.Runs top rest command)
    (kind : command.kind = .accel) (missing : command.child? axis.child = none)
    (timed : command.child? .term = some term) :
    let q := axis.quantity
    let stepped := (e.step b).2.1.1
    q.value stepped = q.value b ∧
      q.course stepped =
        .start (Exec.accelFrames command term b top.parameters e.setup e.memory).value ∧
      (∀ fraction, q.valueAt stepped (.underway fraction) = q.value b * fraction) ∧
      q.valueAt stepped .arrived = q.value b := by
  intro q stepped
  have effect := Exec.accel_run (s := e.setup) timed b top.parameters e.memory
  have step : stepped = _ := congrArg (·.2.1.1) (e.step_runs runs)
  simp only [Exec.command, kind, Cursor.frame, effect, Effect.apply] at step
  rw [step]
  cases axis with
  | horizontal =>
    rw [Exec.component_missing missing]
    exact ⟨rfl, rfl, fun _ => rfl, rfl⟩
  | vertical =>
    rw [Exec.component_missing missing]
    exact ⟨rfl, rfl, fun _ => rfl, rfl⟩

/-- **On an axis that is not given the acceleration grows back to what it was.** It is what it was
after the step, that fraction of it in the frames of the change which has passed, and what it was
from the last of these frames on, until another change is set off. -/
theorem axis_grows_back (axis : Axis) {e : Engine} {b : Bullet} {top : Cursor} {rest : List Cursor}
    {command term : Element} (runs : b.Runs top rest command) (kind : command.kind = .accel)
    (missing : command.child? axis.child = none) (timed : command.child? .term = some term) :
    let q := axis.quantity
    let x := q.value b
    let duration := (Exec.accelFrames command term b top.parameters e.setup e.memory).value
    q.value (e.step b).2.1.1 = x ∧
      ∀ n b', q.Coasts (e.step b).2.1.1 n b' →
        q.value b' = if 0 < n ∧ n < duration then x * (.ofNat n / .ofNat duration) else x := by
  intro q x duration
  obtain ⟨kept, course, underway, arrived⟩ :=
    Engine.step_missing axis (e := e) runs kind missing timed
  refine ⟨kept, fun n b' coasts => ?_⟩
  have some : 1 ≤ duration := Exec.one_le_accelFrames command term b top.parameters e.memory
  rw [Course.start_eq_reached, Nat.max_eq_left some] at course
  rw [(coasts.come some course).1, Course.come]
  by_cases set : n = 0
  · rw [if_pos set, if_neg (by omega)]
    exact kept
  rw [if_neg set]
  by_cases early : n < duration
  · rw [if_pos early, if_pos ⟨by omega, early⟩]
    exact underway _
  · rw [if_neg early, if_neg (by omega)]
    exact arrived

/-- An action that accelerates its bullet along one axis, and then along the other. -/
def swerving : Element :=
  .make .action [("label", "top")] none
    [.make .accel [] none [.leaf .horizontal "4", .leaf .term "1"],
      .make .accel [] none [.leaf .vertical "2", .leaf .term "4"]]

/-- An engine that plays it, and a bullet whose first change is over. -/
def swerver : Engine × Bullet :=
  let e := Engine.make (.ofRoot (.make .bulletml [] none [swerving]) []) {}
  let b := e.shooter swerving .zero
  ((e.step b).1, e.integrate (e.step b).2.1.1 1)

theorem swerver_runs : swerver.2.Runs ⟨swerving, .empty, 1, 0, false, 0⟩ []
    (.make .accel [] none [.leaf .vertical "2", .leaf .term "4"]) :=
  ⟨rfl, rfl, rfl⟩

/-- After three frames, three quarters of the component are back. -/
theorem swerver_grows_back :
    let e := swerver.1
    let b := (e.step swerver.2).2.1.1
    Quantity.horizontal.value b = 4 ∧
      Quantity.horizontal.value (((b.tick 1 1).tick 1 1).tick 1 1) = 3 := by
  intro e b
  obtain ⟨kept, later⟩ := axis_grows_back .horizontal (e := e) swerver_runs rfl rfl rfl
  have frames := later 3 _ (((Quantity.Coasts.start.tick rfl 1 1).tick rfl 1 1).tick rfl 1 1)
  exact ⟨kept.trans (by decide +kernel), frames.trans (by decide +kernel)⟩

/-- An axis that is not given does not keep its component in every frame. -/
theorem swerver_falls :
    ¬ ∀ (axis : Axis) (e : Engine) (b : Bullet) (top : Cursor) (rest : List Cursor)
        (command term : Element), b.Runs top rest command → command.kind = .accel →
      command.child? axis.child = none → command.child? .term = some term →
      ∀ n b', axis.quantity.Coasts (e.step b).2.1.1 n b' →
        axis.quantity.value b' = axis.quantity.value b := by
  intro keeps
  have kept := keeps .horizontal swerver.1 swerver.2 _ _ _ _ swerver_runs rfl rfl rfl 1 _
    (Quantity.Coasts.start.tick rfl 1 1)
  exact absurd kept (by decide +kernel)

end Danmaku
