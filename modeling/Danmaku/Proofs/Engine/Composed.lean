import Danmaku.Engine.Basic

/-!
# What executions are made of

Every command is put together of the values of elements and of a few other things, in none of which
the policy on parameters without a value has a part, and which do not tell of any
(`command_composed`). What holds of these, and goes through binds, holds of every command by
induction on `Exec.Composed`.
-/

namespace Danmaku

def Setup.withPolicy (s : Setup) (policy : UnboundPolicy) : Setup :=
  { s with settings.policy := policy }

/-- A parameter without a value is reported. -/
def Event.unbound : Event → Bool
  | .fault (.expression _ (.unbound _)) => true
  | _ => false

/-- A parameter without a value is taken as 0. -/
def Event.defaults : Event → Bool
  | .defaulted _ => true
  | _ => false

/-- Tells of a parameter without a value. -/
def Event.lacking (event : Event) : Bool := event.unbound || event.defaults

theorem Effect.event?_lacking {effect : Effect} {event : Event} (h : effect.event? = some event) :
    event.lacking = false := by
  cases effect <;> cases h <;> rfl

namespace Exec

/-- Put together of values, and of what does not depend on the policy. -/
inductive Composed : {α : Type} → Exec α → Prop
  | pure {α : Type} (a : α) : Composed (Pure.pure a : Exec α)
  | bind {α β : Type} {x : Exec α} {f : α → Exec β} (hx : Composed x)
      (hf : ∀ a, Composed (f a)) : Composed (x >>= f)
  | read {α : Type} {f : Setup → Exec α} (blind : ∀ s policy, f (s.withPolicy policy) = f s)
      (hf : ∀ s, Composed (f s)) : Composed (setup >>= f)
  | value (e : Element) (p : Parameters) : Composed (value e p)
  | sequences : Composed sequences
  | setSequences (last : Sequences) : Composed (setSequences last)
  | emit (event : Event) (other : event.lacking = false) : Composed (emit event)

namespace Composed

theorem report (cause : Fault) (other : (Event.fault cause).lacking = false) :
    Composed (report cause) :=
  .emit _ other

/-- A value that goes on from the last one of a sequence. -/
theorem resume {α : Type} {f : Sequences → Sequences} {g : Sequences → Exec α}
    (hg : ∀ last, Composed (g last)) :
    Composed (do
      let last ← Exec.sequences
      Exec.setSequences (f last)
      g last) :=
  Composed.sequences.bind fun last => (Composed.setSequences _).bind fun _ => hg last

end Composed

theorem frames_composed (e : Element) (p : Parameters) : Composed (frames e p) :=
  (Composed.value e p).bind fun _ => .pure _

theorem values_composed (p : Parameters) (es : List Element) : Composed (values p es) := by
  induction es with
  | nil => exact .pure _
  | cons e rest ih => exact (Composed.value e p).bind fun _ => ih.bind fun _ => .pure _

theorem resolve_composed (reference : Element) : Composed (resolve reference) := by
  unfold resolve
  apply Composed.read fun _ _ => rfl
  intro s
  split
  · exact .pure _
  · exact (Composed.report _ rfl).bind fun _ => .pure _

theorem arguments_composed (reference : Element) (p : Parameters) :
    Composed (arguments reference p) :=
  (values_composed p _).bind fun _ => .pure _

theorem aim_composed (source : Bullet) : Composed (aim source) :=
  .read (fun _ _ => rfl) fun _ => .pure _

theorem direction_composed (e : Element) (source : Bullet) (p : Parameters) :
    Composed (direction e source p) := by
  unfold direction
  apply (Composed.value e p).bind
  intro x
  apply Composed.read fun _ _ => rfl
  intro s
  cases e.directionType with
  | aim => exact (aim_composed source).bind fun _ => .pure _
  | absolute => exact .pure _
  | relative => exact .pure _
  | sequence => exact .resume fun _ => .pure _

theorem firedSpeed_composed (e : Element) (source : Bullet) (p : Parameters) :
    Composed (firedSpeed e source p) := by
  unfold firedSpeed
  apply (Composed.value e p).bind
  intro x
  cases e.valueType with
  | absolute => exact .pure _
  | relative => exact .pure _
  | sequence => exact Composed.sequences.bind fun _ => .pure _

theorem changedSpeed_composed (e : Element) (source : Bullet) (p : Parameters) :
    Composed (changedSpeed e source p) := by
  unfold changedSpeed
  apply (Composed.value e p).bind
  intro x
  cases e.valueType with
  | absolute => exact .pure _
  | relative => exact .pure _
  | sequence => exact .resume fun _ => .pure _

theorem component_composed (axis : Axis) (command : Element) (current : Binary32)
    (p : Parameters) : Composed (component axis command current p) := by
  unfold component
  cases command.child? axis.child with
  | none => exact .pure _
  | some e =>
    apply (Composed.value e p).bind
    intro x
    cases e.valueType with
    | absolute => exact .pure _
    | relative => exact .pure _
    | sequence => exact .resume fun _ => .pure _

theorem actionOf_composed (e : Element) (p : Parameters) : Composed (actionOf e p) := by
  unfold actionOf
  split
  · apply (resolve_composed e).bind
    intro found
    split
    · exact (arguments_composed e p).bind fun _ => .pure _
    · exact .pure _
  · exact .pure _

theorem entered_composed (action : Element) (p : Parameters) (depth : Nat) :
    Composed (entered action p depth) := by
  unfold entered
  apply Composed.read fun _ _ => rfl
  intro s
  split
  · exact (Composed.report _ rfl).bind fun _ => .pure _
  · exact .pure _

theorem cursorOf_composed (e : Element) (p : Parameters) (depth : Nat) :
    Composed (cursorOf e p depth) := by
  unfold cursorOf
  apply (actionOf_composed e p).bind
  intro called
  split
  · exact entered_composed _ _ depth
  · exact .pure _

theorem wait_composed (e : Element) (f : Frame) : Composed (wait e f) :=
  (Composed.value e _).bind fun _ => .read (fun _ _ => rfl) fun _ => .pure _

theorem action_composed (e : Element) (f : Frame) : Composed (action e f) := by
  unfold action
  apply (cursorOf_composed e f.parameters _).bind
  intro cursor?
  split <;> exact .pure _

theorem repetitions_composed (times : Binary32) : Composed (repetitions times) := by
  unfold repetitions
  apply Composed.read fun _ _ => rfl
  intro s
  dsimp only
  split
  · exact (Composed.report _ rfl).bind fun _ => .pure _
  · exact .pure _

theorem repetition_composed (e : Element) (f : Frame) : Composed (repetition e f) := by
  unfold repetition
  split
  · exact (Composed.report _ rfl).bind fun _ => .pure _
  · apply (Composed.value _ _).bind
    intro x
    dsimp only
    split
    · exact .pure _
    · apply (repetitions_composed _).bind
      intro count
      split
      · exact (Composed.report _ rfl).bind fun _ => .pure _
      · apply (cursorOf_composed _ _ _).bind
        intro cursor?
        split
        · exact (Composed.emit _ rfl).bind fun _ => .pure _
        · exact .pure _

theorem template_composed (fire : Element) (p : Parameters) : Composed (template fire p) := by
  unfold template
  split
  · exact .pure _
  · split
    · apply (resolve_composed _).bind
      intro found
      split
      · exact (arguments_composed _ p).bind fun _ => .pure _
      · exact .pure _
    · exact (Composed.report _ rfl).bind fun _ => .pure _

theorem templateCursors_composed (p : Parameters) (es : List Element) :
    Composed (templateCursors p es) := by
  induction es with
  | nil => exact .pure _
  | cons e rest ih =>
    unfold templateCursors
    split
    · apply (actionOf_composed e p).bind
      intro called
      split
      · exact ih.bind fun _ => .pure _
      · exact ih
    · exact ih

theorem ofChild_composed (e : Element) (kind : Kind) {read : Element → Exec Binary32}
    (h : ∀ child, Composed (read child)) : Composed (ofChild e kind read) := by
  unfold ofChild
  split
  · exact (h _).bind fun _ => .pure _
  · exact .pure _

theorem orElse_composed (x? : Option Binary32) {other : Exec Binary32} (h : Composed other) :
    Composed (orElse x? other) := by
  cases x? with
  | some x => exact .pure _
  | none => exact h

theorem ownHeading_composed (source : Bullet) : Composed (ownHeading source) :=
  (aim_composed source).bind fun _ => .read (fun _ _ => rfl) fun _ => .pure _

theorem ownSpeed_composed (source : Bullet) : Composed (ownSpeed source) := by
  unfold ownSpeed
  split
  · exact .pure _
  · exact .read (fun _ _ => rfl) fun _ => .pure _

theorem madeBullet_composed (command : Element) (source : Bullet) (p : Parameters) :
    Composed (madeBullet command source p) := by
  unfold madeBullet
  apply (ofChild_composed _ _ fun e => direction_composed e source p).bind
  intro heading?
  apply (ofChild_composed _ _ fun e => firedSpeed_composed e source p).bind
  intro speed?
  apply (template_composed command p).bind
  intro template?
  apply (orElse_composed heading? (ownHeading_composed source)).bind
  intro heading
  apply (orElse_composed speed? (ownSpeed_composed source)).bind
  intro speed
  split
  · apply (templateCursors_composed _ _).bind
    intro stack
    apply (ofChild_composed _ _ fun e => direction_composed e source _).bind
    intro heading?
    apply (ofChild_composed _ _ fun e => firedSpeed_composed e source _).bind
    intro speed?
    exact .pure _
  · exact .pure _

theorem fire_composed (command : Element) (source : Bullet) (p : Parameters) :
    Composed (fire command source p) := by
  apply (madeBullet_composed command source p).bind
  intro bullet
  exact .read (fun _ _ => rfl) fun _ => .resume fun _ => .emit _ rfl

theorem withTerm_composed (e : Element) (kind : Kind) : Composed (withTerm e kind) := by
  unfold withTerm
  split
  · exact .pure _
  · exact (Composed.report _ rfl).bind fun _ => .pure _
  · exact (Composed.report _ rfl).bind fun _ => .pure _

theorem changeDirection_composed (e : Element) (bullet : Bullet) (p : Parameters) :
    Composed (changeDirection e bullet p) := by
  unfold changeDirection
  apply (withTerm_composed e .direction).bind
  intro parts?
  split
  · exact .pure _
  · exact (direction_composed _ bullet p).bind fun _ => (frames_composed _ p).bind fun _ => .pure _

theorem changeSpeed_composed (e : Element) (bullet : Bullet) (p : Parameters) :
    Composed (changeSpeed e bullet p) := by
  unfold changeSpeed
  apply (withTerm_composed e .speed).bind
  intro parts?
  split
  · exact .pure _
  · exact (changedSpeed_composed _ bullet p).bind fun _ =>
      (frames_composed _ p).bind fun _ => .pure _

theorem accel_composed (e : Element) (bullet : Bullet) (p : Parameters) :
    Composed (accel e bullet p) := by
  unfold accel
  split
  · exact (Composed.report _ rfl).bind fun _ => .pure _
  · apply (component_composed .horizontal e _ p).bind
    intro h
    apply (component_composed .vertical e _ p).bind
    intro v
    exact (frames_composed _ p).bind fun _ => .pure _

theorem command_composed (e : Element) (bullet : Bullet) (f : Frame) :
    Composed (command e bullet f) := by
  unfold command
  cases e.kind with
  | wait => exact wait_composed e f
  | vanish => exact .pure _
  | repetition => exact repetition_composed e f
  | fire => exact (fire_composed e bullet _).bind fun _ => .pure _
  | fireRef =>
    apply (resolve_composed e).bind
    intro found
    split
    · apply (arguments_composed e _).bind
      intro p
      exact (fire_composed _ bullet p).bind fun _ => .pure _
    · exact .pure _
  | changeDirection => exact changeDirection_composed e bullet _
  | changeSpeed => exact changeSpeed_composed e bullet _
  | accel => exact accel_composed e bullet _
  | action | actionRef => exact action_composed e f
  | _ => exact (Composed.report _ rfl).bind fun _ => .pure _

theorem step_composed (frame : Cursor → Frame) (b : Bullet) : Composed (step frame b) := by
  unfold step
  split
  · exact .pure _
  · split
    · exact .pure _
    · split
      · exact .pure _
      · unfold perform
        apply (command_composed _ b _).bind
        intro effect
        split
        · rename_i event told
          exact (Composed.emit event (Effect.event?_lacking told)).bind fun _ => .pure _
        · exact .pure _

end Exec

end Danmaku
