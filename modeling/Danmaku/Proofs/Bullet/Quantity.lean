import Danmaku.Proofs.Binary32.Integer
import Danmaku.Proofs.Bullet.Ramp
import Danmaku.Proofs.Engine.Changes

/-!
# What changes over time

A bullet's heading, its speed and the two components of its acceleration change in the same way: a
command installs a change, each frame takes it one frame further and sets what it has come to, and
nothing else concerns it (`Quantity.tick`, `Quantity.step`). So after any number of frames the
quantity is where the closed form of its change says (`Quantity.Coasts.come`), whatever else is
done with the bullet.
-/

namespace Danmaku

/-- A duration is the rounded value of its element, within its bounds. -/
theorem Exec.frames_clipped (term : Element) (p : Parameters) (s : Setup) (m : Memory) :
    ∃ z, (value term p s m).value.round.Whole z ∧
      (frames term p s m).value = min (max z 1).toNat maxFrames := by
  obtain ⟨z, whole⟩ := Binary32.whole_round (value_gives term p m (s := s)).1
  refine ⟨z, whole, ?_⟩
  simp only [frames, bind_run, pure_run]
  exact whole.clipped_one maxFrames

theorem Exec.one_le_frames (term : Element) (p : Parameters) (s : Setup) (m : Memory) :
    1 ≤ (frames term p s m).value := by
  obtain ⟨z, -, eq⟩ := frames_clipped term p s m
  have most : 1 ≤ maxFrames := by decide
  rw [eq]
  generalize maxFrames = limit at most ⊢
  omega

/-! ## Quantities -/

inductive Quantity where
  | heading
  | speed
  | horizontal
  | vertical

namespace Quantity

/-- The commands that set off a change of it. -/
def command : Quantity → Kind
  | heading => .changeDirection
  | speed => .changeSpeed
  | horizontal => .accel
  | vertical => .accel

/-- Its value in a bullet; that of an acceleration, in the bullet's own plane. -/
def value : Quantity → Bullet → Binary32
  | heading, b => b.heading
  | speed, b => b.speed
  | horizontal, b => (b.plane.components b.acceleration).1
  | vertical, b => (b.plane.components b.acceleration).2

/-- The course of its change. -/
def course : Quantity → Bullet → Course
  | heading, b => b.headingRamp.course
  | speed, b => b.speedRamp.course
  | horizontal, b => b.thrust.course
  | vertical, b => b.thrust.course

/-- What its change makes of it. -/
def valueAt : Quantity → Bullet → Progress → Binary32
  | heading, b, p => Heading.normalize (b.headingRamp.valueAt p)
  | speed, b, p => b.speedRamp.valueAt p
  | horizontal, b, p => (b.thrust.valueAt p).1
  | vertical, b, p => (b.thrust.valueAt p).2

/-- It is the same in two bullets, and so is its change. -/
structure Same (q : Quantity) (b b' : Bullet) : Prop where
  value : q.value b' = q.value b
  course : q.course b' = q.course b
  valueAt : q.valueAt b' = q.valueAt b

/-- A step that executes none of its commands leaves it as it is. -/
theorem step (q : Quantity) (e : Engine) {b : Bullet}
    (other : ∀ command, b.next? = some command → command.kind ≠ q.command) :
    q.Same b (e.step b).2.1.1 := by
  have confined := e.step_confines b
  generalize (e.step b).2.1.1 = b' at confined ⊢
  have same {γ : Type} {x y : γ} (commanded : x ≠ y → b.NextIs (·.kind = q.command)) : x = y := by
    by_contra changed
    obtain ⟨command, next, kind⟩ := commanded changed
    exact other command next kind
  cases q with
  | heading =>
    have ramp := same confined.headingRamp
    exact ⟨confined.heading, by rw [course, course, ramp], by funext p; rw [valueAt, valueAt, ramp]⟩
  | speed =>
    have ramp := same confined.speedRamp
    exact ⟨confined.speed, by rw [course, course, ramp], by funext p; rw [valueAt, valueAt, ramp]⟩
  | horizontal | vertical =>
    have thrust := same confined.thrust
    have components : b'.plane.components b'.acceleration =
        b.plane.components b.acceleration := by
      rw [confined.plane, confined.acceleration]
    exact ⟨by rw [value, value, components], by rw [course, course, thrust],
      by funext p; rw [valueAt, valueAt, thrust]⟩

/-- A frame sets it to what its change has come to, and takes the change further. -/
structure Advances (q : Quantity) (b b' : Bullet) : Prop where
  value : q.value b' = ((q.course b).advance.2.map (q.valueAt b)).getD (q.value b)
  course : q.course b' = (q.course b).advance.1
  valueAt : q.valueAt b' = q.valueAt b

theorem tick (q : Quantity) {b : Bullet} (active : b.active = true) (dt multiplier : Binary32) :
    q.Advances b (b.tick dt multiplier) := by
  obtain ⟨position, accumulated, eq, -⟩ := Bullet.tick_of_active active dt multiplier
  rw [eq]
  refine ⟨?_, by cases q <;> rfl, by cases q <;> rfl⟩
  cases q with
  | heading =>
    simp only [value, course, Bullet.changed, Ramp.advance, Option.map_map]
    rfl
  | speed => rfl
  | horizontal | vertical =>
    simp only [value, course, Bullet.changed, Thrust.advance, Option.map_map]
    cases b.thrust.course.advance.2 with
    | none => rfl
    | some p =>
      simp only [Option.map_some, Option.getD_some, Function.comp_apply, Plane.components_embed]
      rfl

/-- `b'` comes of `b` in `n` frames, and none of the commands of the quantity is executed. The
bullet may be stepped by any engine, and everything else of it may be written. Only the frames of an
active bullet count; those of one that has vanished do nothing. -/
inductive Coasts (q : Quantity) (b : Bullet) : Nat → Bullet → Prop
  | start : Coasts q b 0 b
  | step {n : Nat} {b' : Bullet} (h : Coasts q b n b') (e : Engine)
      (other : ∀ command, b'.next? = some command → command.kind ≠ q.command) :
      Coasts q b n (e.step b').2.1.1
  | tick {n : Nat} {b' : Bullet} (h : Coasts q b n b') (active : b'.active = true)
      (dt multiplier : Binary32) : Coasts q b (n + 1) (b'.tick dt multiplier)
  | write {n : Nat} {b' b'' : Bullet} (h : Coasts q b n b') (same : q.Same b' b'') :
      Coasts q b n b''

/-- A change that has been set off is where its closed form says, and so is what it changes. -/
theorem Coasts.come {q : Quantity} {b b' : Bullet} {n duration : Nat} (h : q.Coasts b n b')
    (some : 0 < duration) (sets : q.course b = .reached duration 0) :
    q.value b' = Course.come (q.valueAt b) (q.value b) duration n ∧
      q.course b' = .reached duration n ∧ q.valueAt b' = q.valueAt b := by
  induction h with
  | start => exact ⟨rfl, sets, rfl⟩
  | step h e other ih =>
    obtain ⟨value, course, valueAt⟩ := ih
    have same := q.step e other
    exact ⟨same.value.trans value, same.course.trans course, same.valueAt.trans valueAt⟩
  | write h same ih =>
    obtain ⟨value, course, valueAt⟩ := ih
    exact ⟨same.value.trans value, same.course.trans course, same.valueAt.trans valueAt⟩
  | @tick n b' h active dt multiplier ih =>
    obtain ⟨value, course, valueAt⟩ := ih
    have advances := q.tick active dt multiplier
    refine ⟨?_, ?_, advances.valueAt.trans valueAt⟩
    · rw [advances.value, course, Course.advance_reached, valueAt, value]
      exact Course.come_succ (q.valueAt b) (q.value b) some n
    · rw [advances.course, course, Course.advance_reached]

end Quantity

end Danmaku
