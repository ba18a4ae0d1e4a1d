import Danmaku.Proofs.Engine.Writes
import Danmaku.Proofs.Field
import Danmaku.Proofs.Geometry.Heading

/-!
# Headings stay in their range

Whatever a program does with an engine and with any number of bullets (`Field`), every heading
comes out of `Heading.normalize`: that of a bullet, that on which the sequences go on, and that
towards which a command turns a bullet (`headings_inRange`).
-/

namespace Danmaku

open Heading (InRange normalize_inRange)

namespace Exec

variable {s : Setup}

theorem direction_inRange (e : Element) (source : Bullet) (p : Parameters) :
    Gives s InRange (fun _ => True) (direction e source p) := by
  unfold direction
  apply (value_gives e p).forget.bind
  intro x _
  apply Gives.setup.bind
  intro s' _
  cases e.directionType with
  | aim =>
    apply (aim_gives source).forget.bind
    intro _ _
    exact .pure (normalize_inRange _)
  | absolute => exact .pure (normalize_inRange _)
  | relative => exact .pure (normalize_inRange _)
  | sequence =>
    apply Gives.sequences.bind
    intro last _
    apply (Gives.setSequences _).bind
    intro _ _
    exact .pure (normalize_inRange _)

/-- A command that sets off a change of the heading turns to a heading in the range, and no other
command turns. -/
theorem command_turns (e : Element) (b : Bullet) (f : Frame) :
    Gives s (fun effect =>
        (e.turns = true → ∃ ramp, effect = .turn ramp ∧ InRange ramp.target) ∧
          (e.turns = false → ∀ ramp, effect ≠ .turn ramp))
      (fun _ => True) (command e b f) := by
  by_cases kind : e.kind = .changeDirection
  · simp only [command, kind, changeDirection]
    apply (withTerm_found e .direction).bind
    intro found? found
    rcases found? with _ | ⟨child, term⟩
    · have still : e.turns = false := by
        cases direction : e.child? .direction with
        | none => simp [Element.turns, direction]
        | some child =>
          cases term : e.child? .term with
          | none => simp [Element.turns, term]
          | some term' => cases (found child term').2 ⟨direction, term⟩
      exact .pure (by simp [still])
    · have both := (found child term).1 rfl
      have turns : e.turns = true := by simp [Element.turns, kind, both]
      apply (direction_inRange child b f.parameters).bind
      intro target inRange
      apply (frames_gives term f.parameters).forget.bind
      intro duration _
      apply Gives.pure
      constructor
      · intro _
        exact ⟨_, rfl, inRange⟩
      · simp [turns]
  · have still : e.turns = false := by simp [Element.turns, kind]
    apply (command_gives e b f).mono
    · intro effect of
      constructor
      · simp [still]
      · intro _ ramp eq
        subst eq
        cases of with
        | turn h => exact kind h
    · exact fun _ _ => trivial

end Exec

theorem Effect.apply_headingRamp (effect : Effect) (b : Bullet) (top : Cursor)
    (rest : List Cursor) (still : ∀ ramp, effect ≠ .turn ramp) :
    (effect.apply b top rest).1.headingRamp = b.headingRamp := by
  cases effect with
  | turn ramp => exact absurd rfl (still ramp)
  | _ => rfl

/-- A step that sets off a change of the heading does so towards a heading in the range, and any
other step leaves the change that is under way. -/
theorem Engine.step_turns (e : Engine) (b : Bullet) :
    (b.turns = true → InRange (e.step b).2.1.1.headingRamp.target) ∧
      (b.turns = false → (e.step b).2.1.1.headingRamp = b.headingRamp) := by
  rcases e.step_cases b with ⟨none, stack, eq⟩ | ⟨top, rest, command, runs⟩
  · have still : b.turns = false := by simp [Bullet.turns, none]
    rw [eq]
    exact ⟨by simp [still], fun _ => rfl⟩
  · have turns : b.turns = command.turns := by simp [Bullet.turns, runs.next?]
    obtain ⟨turning, still⟩ :=
      (Exec.command_turns command b top.frame e.memory (s := e.setup)).1
    rw [turns, e.step_runs runs]
    constructor
    · intro turns
      obtain ⟨ramp, eq, inRange⟩ := turning turns
      dsimp only
      rw [eq]
      exact inRange
    · intro turns
      exact Effect.apply_headingRamp _ b top rest (still turns)

/-! ## Headings in the range -/

theorem Bullet.tick_inRange {b : Bullet} (h : InRange b.heading) (dt multiplier : Binary32) :
    InRange (b.tick dt multiplier).heading := by
  rcases b.tick_cases dt multiplier with eq | ⟨heading, _, _, _, _, rfl | ⟨x, rfl⟩, eq⟩
  · rw [eq]
    exact h
  · rw [eq]
    exact h
  · rw [eq]
    exact normalize_inRange x

theorem Bullet.tick_target (b : Bullet) (dt multiplier : Binary32) :
    (b.tick dt multiplier).headingRamp.target = b.headingRamp.target := by
  rcases b.tick_cases dt multiplier with eq | ⟨_, _, _, _, _, -, eq⟩
  · rw [eq]
  · rw [eq, Ramp.advance]

theorem Bullet.Makes.inRange {source b : Bullet} (h : source.Makes b) : InRange b.heading := by
  obtain ⟨heading, speed, stack, rfl⟩ := h
  exact normalize_inRange heading

theorem Engine.step_heading (e : Engine) (b : Bullet) : (e.step b).2.1.1.heading = b.heading := by
  have takes := e.step_takes b
  generalize (e.step b).2.1 = result at takes
  cases takes with
  | on => rfl
  | vanish => rfl

theorem Engine.step_direction {e : Engine} (h : InRange e.memory.sequences.direction)
    (b : Bullet) : InRange (e.step b).1.memory.sequences.direction := by
  apply e.step_lasting (I := fun last => InRange last.direction) _ h
  intro p command last last' writes inRange
  cases writes with
  | turn => exact normalize_inRange _
  | aim => exact normalize_inRange _
  | handOver => exact normalize_inRange _
  | changeSpeed => exact inRange
  | component axis =>
    rw [last.setComponent_direction]
    exact inRange

structure Piece.Normal (p : Piece) : Prop where
  heading : InRange p.bullet.heading
  target : p.commanded = true → InRange p.bullet.headingRamp.target

theorem Piece.normal_of_fresh {b : Bullet} (h : InRange b.heading) : Normal ⟨b, false⟩ where
  heading := h
  target commanded := by cases commanded

theorem Piece.normal_lasting : Lasting Normal where
  make _ heading _ _ := normal_of_fresh (normalize_inRange heading)
  shooter _ _ := normal_of_fresh (normalize_inRange 0)
  fired fired := normal_of_fresh (Engine.step_fired fired).inRange
  touch {p} h touch := by
    cases touch with
    | setHeading heading => exact ⟨normalize_inRange heading, h.target⟩
    | changeDirection ramp => exact normal_of_fresh h.heading
    | tick dt multiplier =>
      constructor
      · exact Bullet.tick_inRange h.heading dt multiplier
      · intro commanded
        rw [Piece.touch, Bullet.tick_target]
        exact h.target commanded
    | _ => exact ⟨h.heading, h.target⟩
  step {p} h e := by
    obtain ⟨turning, still⟩ := e.step_turns p.bullet
    constructor
    · rw [Piece.step, Engine.step_heading]
      exact h.heading
    · intro commanded
      cases turns : p.bullet.turns with
      | true => exact turning turns
      | false =>
        simp only [Piece.step, turns, Bool.false_or, still turns] at commanded ⊢
        exact h.target commanded

theorem Field.run_direction {f : Field} (h : InRange f.engine.memory.sequences.direction)
    (acts : List Act) : InRange (f.run acts).engine.memory.sequences.direction := by
  induction acts generalizing f with
  | nil => exact h
  | cons a rest ih =>
    apply ih
    rcases f.act_engine a with eq | ⟨b, eq⟩ | ⟨adjustment, eq⟩
    · rw [eq]
      exact h
    · rw [eq]
      exact Engine.step_direction h b
    · rw [eq, Engine.adjust_sequences]
      exact h

/-- **Headings stay normalized.** Whatever a program does with an engine and its bullets, the
heading of every bullet, the heading on which the sequences go on, and the target of every change
of a heading that a command has set off are finite, above -360 and not above 360. -/
theorem headings_inRange (document : Document) (settings : Settings) (acts : List Field.Act) :
    let f := (Field.start document settings).run acts
    (∀ p ∈ f.pieces, InRange p.bullet.heading ∧
      (p.commanded = true → InRange p.bullet.headingRamp.target)) ∧
    InRange f.engine.memory.sequences.direction := by
  intro f
  have normal : ∀ p ∈ f.pieces, p.Normal :=
    Piece.normal_lasting.run (fun p mem => absurd mem List.not_mem_nil) acts
  constructor
  · intro p mem
    exact ⟨(normal p mem).heading, (normal p mem).target⟩
  · exact Field.run_direction Heading.zero_inRange acts

/-- An action that turns its bullet on by nearly three whole turns. -/
def spin : Element :=
  .make .action [("label", "top")] none
    [.make .changeDirection [] none
      [.make .direction [("type", "sequence")] (some "-1000") [], .leaf .term "5"]]

example :
    let f := (Field.start (.ofRoot (.make .bulletml [] none [spin]) []) {}).run
      [.make .zero .nan 1 .xy, .touch 0 (.push (.enter spin .empty 0)), .step 0, .integrate 0 1]
    f.pieces.map (fun p => (p.bullet.heading, p.commanded, p.bullet.headingRamp.target)) =
      [(-56, true, -280)] := by
  decide +kernel

end Danmaku
