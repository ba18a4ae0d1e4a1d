import Danmaku.Proofs.Bullet.Quantity
import Danmaku.Proofs.Field

/-!
# Changes stay on their course

A change that is made and advanced over and over passes through the fractions of its frames,
arrives at its target, and then rests there (`Course.start_frames`). Whatever a program does with
its bullets, the changes that they carry are on such a course (`Piece.onTrack_lasting`).
`changes_on_course` puts the two together.
-/

namespace Danmaku

/-- Where a change is after `n` frames, and what the next frame makes of it. A count of 32 bits
does not run over. -/
theorem Course.start_frames (d : UInt32) (n : Nat) :
    let duration := max d.toNat 1
    let c := (start d.toNat).after n
    c = ⟨duration, min n duration, n < duration⟩ ∧
      c.advance.2 = progress? duration (n + 1) ∧
      (c.active = true → c.frame + 1 < 2 ^ 32) := by
  intro duration c
  have reached : c = reached duration n := start_after d.toNat n
  have small : duration < 2 ^ 32 := Nat.max_lt.2 ⟨d.toNat_lt, by decide⟩
  refine ⟨reached.trans (reached_eq duration n), ?_, fun active => ?_⟩
  · rw [reached, advance_reached]
  · rw [reached] at active ⊢
    have underway := (reached_active duration n).1 active
    have passed : (Course.reached duration n).frame = n := by rw [Course.reached, if_pos underway]
    omega

theorem Course.map_progress? {α : Type} (valueAt : Progress → α) (duration n : Nat) :
    (progress? duration n).map valueAt =
      if n < duration then some (valueAt (.underway (.ofNat n / .ofNat duration)))
      else if n = duration then some (valueAt .arrived)
      else none := by
  unfold progress?
  split
  · rfl
  · split
    · rfl
    · rfl

/-! ## The changes of a bullet -/

/-- The changes of a bullet are on their course. -/
structure Bullet.OnTrack (b : Bullet) : Prop where
  heading : b.headingRamp.course.OnTrack
  speed : b.speedRamp.course.OnTrack
  thrust : b.thrust.course.OnTrack

/-- The course of the change that an effect sets off. -/
def Effect.course? : Effect → Option Course
  | turn ramp => some ramp.course
  | changeSpeed ramp => some ramp.course
  | accelerate thrust => some thrust.course
  | _ => none

/-- A change that an effect sets off is on its course. -/
def Effect.OnTrack (effect : Effect) : Prop := ∀ c, effect.course? = some c → c.OnTrack

theorem Effect.onTrack_of_course {effect : Effect} {c : Course} (is : effect.course? = some c)
    (h : c.OnTrack) : effect.OnTrack := by
  intro c' is'
  cases is.symm.trans is'
  exact h

theorem Effect.onTrack_of_none {effect : Effect} (none : effect.course? = none) :
    effect.OnTrack := by
  intro c is
  cases none.symm.trans is

namespace Exec

variable {s : Setup}

/-- A duration fits into 32 bits. -/
theorem frames_small (term : Element) (p : Parameters) :
    Gives s (· < 2 ^ 32) (fun _ => True) (frames term p) := by
  intro m
  obtain ⟨z, -, eq⟩ := frames_clipped term p s m
  refine ⟨?_, fun _ _ => trivial⟩
  rw [eq]
  exact Nat.lt_of_le_of_lt (Nat.min_le_right _ _) (by decide)

theorem changeDirection_onTrack (e : Element) (b : Bullet) (p : Parameters) :
    Gives s Effect.OnTrack (fun _ => True) (changeDirection e b p) := by
  unfold changeDirection
  apply (withTerm_gives e .direction).forget.bind
  intro found _
  split
  · exact .pure (Effect.onTrack_of_none rfl)
  · rename_i child term
    apply (direction_gives child b p).forget.bind
    intro target _
    apply (frames_small term p).bind
    intro duration small
    exact .pure (Effect.onTrack_of_course rfl (Course.start_onTrack small))

theorem changeSpeed_onTrack (e : Element) (b : Bullet) (p : Parameters) :
    Gives s Effect.OnTrack (fun _ => True) (changeSpeed e b p) := by
  unfold changeSpeed
  apply (withTerm_gives e .speed).forget.bind
  intro found _
  split
  · exact .pure (Effect.onTrack_of_none rfl)
  · rename_i child term
    apply (changedSpeed_gives child b p).forget.bind
    intro target _
    apply (frames_small term p).bind
    intro duration small
    exact .pure (Effect.onTrack_of_course rfl (Course.start_onTrack small))

theorem accel_onTrack (e : Element) (b : Bullet) (p : Parameters) :
    Gives s Effect.OnTrack (fun _ => True) (accel e b p) := by
  unfold accel
  split
  · apply (Gives.report trivial).bind
    intro _ _
    exact .pure (Effect.onTrack_of_none rfl)
  · rename_i term _
    dsimp only
    apply (component_gives .horizontal e _ p).forget.bind
    intro h _
    apply (component_gives .vertical e _ p).forget.bind
    intro v _
    apply (frames_small term p).bind
    intro duration small
    exact .pure (Effect.onTrack_of_course rfl (Course.start_onTrack small))

theorem command_onTrack (e : Element) (b : Bullet) (f : Frame) :
    Gives s Effect.OnTrack (fun _ => True) (command e b f) := by
  by_cases turn : e.kind = .changeDirection
  · simp only [command, turn]
    exact changeDirection_onTrack e b f.parameters
  by_cases change : e.kind = .changeSpeed
  · simp only [command, change]
    exact changeSpeed_onTrack e b f.parameters
  by_cases accelerate : e.kind = .accel
  · simp only [command, accelerate]
    exact accel_onTrack e b f.parameters
  · -- No other command sets off a change.
    apply (command_gives e b f).mono
    · intro effect of
      apply Effect.onTrack_of_none
      cases of with
      | turn kind => exact absurd kind turn
      | changeSpeed kind => exact absurd kind change
      | accelerate kind => exact absurd kind accelerate
      | _ => rfl
    · exact fun _ _ => trivial

end Exec

namespace Bullet.OnTrack

variable {b : Bullet}

theorem apply (h : b.OnTrack) {effect : Effect} (sets : effect.OnTrack) (top : Cursor)
    (rest : List Cursor) : (effect.apply b top rest).1.OnTrack := by
  cases effect with
  | turn ramp => exact ⟨sets ramp.course rfl, h.speed, h.thrust⟩
  | changeSpeed ramp => exact ⟨h.heading, sets ramp.course rfl, h.thrust⟩
  | accelerate thrust => exact ⟨h.heading, h.speed, sets thrust.course rfl⟩
  | _ => exact ⟨h.heading, h.speed, h.thrust⟩

theorem step (h : b.OnTrack) (e : Engine) : (e.step b).2.1.1.OnTrack := by
  rcases e.step_cases b with ⟨-, stack, eq⟩ | ⟨top, rest, command, runs⟩
  · rw [eq]
    exact ⟨h.heading, h.speed, h.thrust⟩
  · rw [e.step_runs runs]
    have sets := (Exec.command_onTrack (s := e.setup) command b top.frame e.memory).1
    exact h.apply sets top rest

theorem tick (h : b.OnTrack) (dt multiplier : Binary32) : (b.tick dt multiplier).OnTrack := by
  by_cases active : b.active = true
  · obtain ⟨position, accumulated, eq, -⟩ := Bullet.tick_of_active active dt multiplier
    rw [eq]
    exact ⟨h.heading.advance, h.speed.advance, h.thrust.advance⟩
  · rw [Bullet.tick, if_neg active]
    exact h

theorem makes {source : Bullet} (h : source.Makes b) : b.OnTrack := by
  obtain ⟨heading, speed, stack, rfl⟩ := h
  exact ⟨Course.idle_onTrack, Course.idle_onTrack, Course.idle_onTrack⟩

end Bullet.OnTrack

/-- A program installs only changes that it can hold. -/
def Touch.Held : Touch → Prop
  | .changeDirection ramp => ramp.course.Held
  | .changeSpeed ramp => ramp.course.Held
  | .setThrust thrust => thrust.course.Held
  | _ => True

theorem Piece.onTrack_lasting : LastingUnder Touch.Held fun p => p.bullet.OnTrack where
  make _ _ _ _ := ⟨Course.idle_onTrack, Course.idle_onTrack, Course.idle_onTrack⟩
  shooter _ _ := ⟨Course.idle_onTrack, Course.idle_onTrack, Course.idle_onTrack⟩
  fired fired := .makes (Engine.step_fired fired)
  touch {p} h touch held := by
    cases touch with
    | changeDirection ramp => exact ⟨held.onTrack, h.speed, h.thrust⟩
    | changeSpeed ramp => exact ⟨h.heading, held.onTrack, h.thrust⟩
    | setThrust thrust => exact ⟨h.heading, h.speed, held.onTrack⟩
    | clearThrust => exact ⟨h.heading, h.speed, Course.idle_onTrack⟩
    | tick dt multiplier => exact h.tick dt multiplier
    | _ => exact ⟨h.heading, h.speed, h.thrust⟩
  tick h dt multiplier := h.tick dt multiplier
  step h e := h.step e

/-- **Changes stay on their course.** A change that takes `d` frames, but one at least, has counted
`n` of them after `n` frames, until it has counted all and is over. Each frame but the last sets
the fraction of the way that the frames make, the last sets the target, and no frame after it sets
anything; the count never leaves its 32 bits. Whatever a program does with an engine and its
bullets, every change of a bullet is on such a course. -/
theorem changes_on_course :
    (∀ (start target : Binary32) (d : UInt32) (n : Nat),
      let duration := max d.toNat 1
      let r := (Ramp.make start target d.toNat).after n
      r = ⟨start, target, ⟨duration, min n duration, n < duration⟩⟩ ∧
      r.advance.2 =
        (if n + 1 < duration then
          some (start + (target - start) * (.ofNat (n + 1) / .ofNat duration))
        else if n + 1 = duration then some target
        else none) ∧
      (r.course.active = true → r.course.frame + 1 < 2 ^ 32)) ∧
    (∀ (horizontal vertical : Binary32) (d : UInt32) (n : Nat),
      let duration := max d.toNat 1
      let t := (Thrust.make horizontal vertical d.toNat).after n
      t = ⟨horizontal, vertical, ⟨duration, min n duration, n < duration⟩⟩ ∧
      t.advance.2 =
        (if n + 1 < duration then
          some (horizontal * (.ofNat (n + 1) / .ofNat duration),
            vertical * (.ofNat (n + 1) / .ofNat duration))
        else if n + 1 = duration then some (horizontal, vertical)
        else none) ∧
      (t.course.active = true → t.course.frame + 1 < 2 ^ 32)) ∧
    ∀ (document : Document) (settings : Settings) (acts : List Field.Act),
      (∀ a ∈ acts, a.Within Touch.Held) →
        ∀ p ∈ ((Field.start document settings).run acts).pieces, p.bullet.OnTrack := by
  refine ⟨fun start target d n => ?_, fun horizontal vertical d n => ?_, ?_⟩
  · obtain ⟨course, progress, counted⟩ := Course.start_frames d n
    intro duration r
    have after : r = ⟨start, target, (Course.start d.toNat).after n⟩ := Ramp.after_eq _ n
    rw [after]
    refine ⟨by rw [course], ?_, counted⟩
    rw [Ramp.advance_snd, progress]
    exact Course.map_progress? _ duration (n + 1)
  · obtain ⟨course, progress, counted⟩ := Course.start_frames d n
    intro duration t
    have after : t = ⟨horizontal, vertical, (Course.start d.toNat).after n⟩ := Thrust.after_eq _ n
    rw [after]
    refine ⟨by rw [course], ?_, counted⟩
    rw [Thrust.advance_snd, progress]
    exact Course.map_progress? _ duration (n + 1)
  · intro document settings acts held
    exact Piece.onTrack_lasting.run (fun p mem => absurd mem List.not_mem_nil) held

/-- What a program does with one bullet: it installs a change that has come a frame on, and has the
bullet play an action that sets off two more. -/
def handling : List Field.Act :=
  [.make .zero 0 1 .xy, .touch 0 (.changeSpeed (Ramp.make 1 3 2).advance.1),
    .touch 0 (.push (.enter thrusting .empty 0)), .step 0, .integrate 0 1, .step 0, .integrate 0 1]

/-- The longest change arrives in its last frame, and all changes of the bullet are on course. -/
theorem handling_on_course :
    ((Ramp.make 0 90 (4294967295 : UInt32).toNat).after 4294967294).advance.2 = some 90 ∧
      (∀ a ∈ handling, a.Within Touch.Held) ∧
      ∀ p ∈ ((Field.start thruster.engine.setup.document {}).run handling).pieces,
        p.bullet.OnTrack := by
  have held : ∀ a ∈ handling, a.Within Touch.Held := by
    have installed : (Ramp.make 1 3 2).advance.1.course.Held := .advance (.start 2)
    simp [handling, Field.Act.Within, Touch.Held, installed]
  have last := (changes_on_course.1 0 90 4294967295 4294967294).2.1
  rw [if_neg (by decide +kernel), if_pos (by decide +kernel)] at last
  exact ⟨last, held, changes_on_course.2.2 _ {} handling held⟩

end Danmaku
