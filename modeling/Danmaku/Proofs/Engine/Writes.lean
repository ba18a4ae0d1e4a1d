import Mathlib.Logic.Relation
import Danmaku.Proofs.Engine.Readings

/-!
# What commands write

The sequences are what one command leaves for another. `Sequences.Writes` lists what each command
can do to them at one time, and `command_writes` says that this is all. So what every write keeps
is kept by a step, of whatever bullet (`Engine.step_lasting`).
-/

namespace Danmaku

/-- What a command under parameters `p` can make of the sequences at one time. -/
inductive Sequences.Writes (d : Document) (p : Parameters) (e : Element) (last : Sequences) :
    Sequences → Prop
  | turn {child : Element} (h : e.kind = .changeDirection)
      (found : e.child? .direction = some child) (type : child.directionType = .sequence)
      (x : Binary32) :
      Writes d p e last { last with direction := Heading.normalize (last.direction + x) }
  | aim {fire : Element} {q : Parameters} (fires : Fires d p e fire q) (x : Binary32) :
      Writes d p e last { last with direction := Heading.normalize (last.direction + x) }
  | handOver {fire : Element} {q : Parameters} (fires : Fires d p e fire q) (x speed : Binary32) :
      Writes d p e last { last with direction := Heading.normalize x, speed }
  | changeSpeed {child : Element} (h : e.kind = .changeSpeed)
      (found : e.child? .speed = some child) (type : child.valueType = .sequence)
      (speed : Binary32) : Writes d p e last { last with changeSpeed := some speed }
  | component (axis : Axis) {child : Element} (h : e.kind = .accel)
      (found : e.child? axis.child = some child) (type : child.valueType = .sequence)
      (x : Binary32) : Writes d p e last (last.setComponent axis (last.component axis + x))

namespace Exec

variable {α β : Type} {s : Setup} {W : Sequences → Sequences → Prop}

/-- Whatever the memory, its sequences go through nothing but changes in `W`. -/
def Writes (s : Setup) (W : Sequences → Sequences → Prop) (x : Exec α) : Prop :=
  ∀ m, Relation.ReflTransGen W m.sequences (x s m).memory.sequences

namespace Writes

theorem pure (a : α) : Writes s W (Pure.pure a) := fun _ => .refl

theorem setup : Writes s W setup := fun _ => .refl

theorem sequences : Writes s W sequences := fun _ => .refl

theorem emit (event : Event) : Writes s W (emit event) := fun _ => .refl

theorem report (cause : Fault) : Writes s W (report cause) := fun _ => .refl

/-- What follows needs to do only with the values that there can be. -/
theorem bindOf {P : α → Prop} {Q : Event → Prop} {x : Exec α} {f : α → Exec β}
    (gives : Gives s P Q x) (hx : Writes s W x) (hf : ∀ a, P a → Writes s W (f a)) :
    Writes s W (x >>= f) := by
  intro m
  rw [bind_run]
  exact (hx m).trans (hf _ (gives m).1 _)

theorem bind {x : Exec α} {f : α → Exec β} (hx : Writes s W x) (hf : ∀ a, Writes s W (f a)) :
    Writes s W (x >>= f) := by
  intro m
  rw [bind_run]
  exact (hx m).trans (hf _ _)

theorem store {f : Sequences → Sequences} {g : Sequences → Exec α} (change : ∀ last, W last (f last))
    (hg : ∀ last, Writes s W (g last)) :
    Writes s W (do
      let last ← Exec.sequences
      setSequences (f last)
      g last) := by
  intro m
  exact .head (change m.sequences) (hg m.sequences { m with sequences := f m.sequences })

/-- What all writes keep, the execution keeps. -/
theorem keeps {I : Sequences → Prop} {x : Exec α} (h : Writes s W x)
    (each : ∀ last last', W last last' → I last → I last') {m : Memory} (start : I m.sequences) :
    I (x s m).memory.sequences := by
  have path := h m
  generalize (x s m).memory.sequences = last at path
  induction path with
  | refl => exact start
  | tail _ change ih => exact each _ _ change ih

end Writes

theorem Reading.writes {x : Exec α} (h : Reading x) : Writes s W x := by
  intro m
  rw [h.sequences s m]

theorem aim_writes (source : Bullet) : Writes s W (aim source) :=
  Writes.setup.bind fun _ => .pure _

theorem firedSpeed_writes (e : Element) (source : Bullet) (p : Parameters) :
    Writes s W (firedSpeed e source p) := by
  unfold firedSpeed
  apply (value_reading e p).writes.bind
  intro x
  split
  · exact .pure _
  · exact .pure _
  · exact Writes.sequences.bind fun _ => .pure _

theorem repetitions_writes (times : Binary32) : Writes s W (repetitions times) := by
  unfold repetitions
  apply Writes.setup.bind
  intro s'
  dsimp only
  split
  · exact (Writes.report _).bind fun _ => .pure _
  · exact .pure _

theorem wait_writes (e : Element) (f : Frame) : Writes s W (wait e f) :=
  (value_reading e _).writes.bind fun _ => Writes.setup.bind fun _ => .pure _

theorem action_writes (e : Element) (f : Frame) : Writes s W (action e f) := by
  unfold action
  apply (cursorOf_reading e f.parameters _).writes.bind
  intro cursor?
  split <;> exact .pure _

theorem repetition_writes (e : Element) (f : Frame) : Writes s W (repetition e f) := by
  unfold repetition
  split
  · exact (Writes.report _).bind fun _ => .pure _
  · apply (value_reading _ _).writes.bind
    intro x
    dsimp only
    split
    · exact .pure _
    · apply (repetitions_writes _).bind
      intro count
      split
      · exact (Writes.report _).bind fun _ => .pure _
      · apply (cursorOf_reading _ _ _).writes.bind
        intro cursor?
        split
        · exact (Writes.emit _).bind fun _ => .pure _
        · exact .pure _

theorem ofChild_writes {e : Element} {kind : Kind} {read : Element → Exec Binary32}
    (h : ∀ child, Writes s W (read child)) : Writes s W (ofChild e kind read) := by
  unfold ofChild
  split
  · exact (h _).bind fun _ => .pure _
  · exact .pure _

theorem orElse_writes (x? : Option Binary32) {other : Exec Binary32} (h : Writes s W other) :
    Writes s W (orElse x? other) := by
  cases x? with
  | some x => exact .pure _
  | none => exact h

theorem ownHeading_writes (source : Bullet) : Writes s W (ownHeading source) :=
  (aim_writes source).bind fun _ => Writes.setup.bind fun _ => .pure _

theorem ownSpeed_writes (source : Bullet) : Writes s W (ownSpeed source) := by
  unfold ownSpeed
  split
  · exact .pure _
  · exact Writes.setup.bind fun _ => .pure _

theorem withTerm_writes (e : Element) (kind : Kind) : Writes s W (withTerm e kind) := by
  unfold withTerm
  split
  · exact .pure _
  · exact (Writes.report _).bind fun _ => .pure _
  · exact (Writes.report _).bind fun _ => .pure _

theorem direction_writes {e : Element} (source : Bullet) (p : Parameters)
    (h : e.directionType = .sequence → ∀ x (last : Sequences),
      W last { last with direction := Heading.normalize (last.direction + x) }) :
    Writes s W (direction e source p) := by
  unfold direction
  apply (value_reading e p).writes.bind
  intro x
  apply Writes.setup.bind
  intro s'
  cases type : e.directionType with
  | aim => exact (aim_writes source).bind fun _ => .pure _
  | absolute => exact .pure _
  | relative => exact .pure _
  | sequence => exact .store (h type x) fun _ => .pure _

theorem changedSpeed_writes {e : Element} (source : Bullet) (p : Parameters)
    (h : e.valueType = .sequence → ∀ speed (last : Sequences),
      W last { last with changeSpeed := some speed }) :
    Writes s W (changedSpeed e source p) := by
  unfold changedSpeed
  apply (value_reading e p).writes.bind
  intro x
  cases type : e.valueType with
  | absolute => exact .pure _
  | relative => exact .pure _
  | sequence => exact .store (fun last => h type _ last) fun _ => .pure _

theorem component_writes (axis : Axis) {command : Element} (current : Binary32) (p : Parameters)
    (h : ∀ e, command.child? axis.child = some e → e.valueType = .sequence →
      ∀ x (last : Sequences), W last (last.setComponent axis (last.component axis + x))) :
    Writes s W (component axis command current p) := by
  unfold component
  cases found : command.child? axis.child with
  | none => exact .pure _
  | some e =>
    apply (value_reading e p).writes.bind
    intro x
    cases type : e.valueType with
    | absolute => exact .pure _
    | relative => exact .pure _
    | sequence => exact .store (h e found type x) fun _ => .pure _

theorem fire_writes {fire : Element} (source : Bullet) (q : Parameters)
    (aim : ∀ x (last : Sequences),
      W last { last with direction := Heading.normalize (last.direction + x) })
    (handOver : ∀ x speed (last : Sequences),
      W last { last with direction := Heading.normalize x, speed }) :
    Writes s W (Exec.fire fire source q) := by
  have direction (e : Element) (p : Parameters) : Writes s W (direction e source p) :=
    direction_writes source p fun _ => aim
  have made : Writes s W (madeBullet fire source q) := by
    unfold madeBullet
    apply (ofChild_writes fun e => direction e q).bind
    intro heading?
    apply (ofChild_writes fun e => firedSpeed_writes e source q).bind
    intro speed?
    apply (template_reading fire q).writes.bind
    intro template?
    apply (orElse_writes heading? (ownHeading_writes source)).bind
    intro heading
    apply (orElse_writes speed? (ownSpeed_writes source)).bind
    intro speed
    split
    · rename_i t r
      apply (templateCursors_reading r t.children).writes.bind
      intro stack
      apply (ofChild_writes fun e => direction e r).bind
      intro heading?
      apply (ofChild_writes fun e => firedSpeed_writes e source r).bind
      intro speed?
      exact .pure _
    · exact .pure _
  apply made.bind
  intro bullet
  apply Writes.setup.bind
  intro s'
  exact .store (handOver _ _) fun _ => .emit _

/-! ## Commands -/

theorem resolve_found (reference : Element) :
    Gives s (fun found => ∀ e, found = some e →
        ∃ d, s.document.resolve? reference = some d ∧ d.element = e)
      (fun _ => True) (resolve reference) := by
  rw [← bind_pure (resolve reference)]
  apply resolve_gives (fun _ _ => trivial)
  · exact .pure (by simp)
  · intro d named
    exact .pure fun e eq => ⟨d, named, Option.some.inj eq⟩

/-- The children that a change needs are found if both are there. -/
theorem withTerm_found (e : Element) (kind : Kind) :
    Gives s (fun found => ∀ child term, found = some (child, term) ↔
        e.child? kind = some child ∧ e.child? .term = some term)
      (fun _ => True) (withTerm e kind) := by
  unfold withTerm
  split
  · rename_i child term found found'
    apply Gives.pure
    simp [found, found']
  · rename_i missing
    apply (Gives.report trivial).bind
    intro _ _
    apply Gives.pure
    simp [missing]
  · rename_i missing
    apply (Gives.report trivial).bind
    intro _ _
    apply Gives.pure
    simp [missing]

section Commands

variable {e : Element} {f : Frame}

theorem changeDirection_writes (b : Bullet) (h : e.kind = .changeDirection) :
    Writes s (Sequences.Writes s.document f.parameters e) (changeDirection e b f.parameters) := by
  unfold changeDirection
  apply Writes.bindOf (withTerm_found e .direction) (withTerm_writes e .direction)
  intro found? found
  split
  · exact .pure _
  · rename_i child term
    apply (direction_writes b _ fun type x _ => .turn h ((found child term).1 rfl).1 type x).bind
    intro target
    exact (frames_reading term _).writes.bind fun _ => .pure _

theorem changeSpeed_writes (b : Bullet) (h : e.kind = .changeSpeed) :
    Writes s (Sequences.Writes s.document f.parameters e) (changeSpeed e b f.parameters) := by
  unfold changeSpeed
  apply Writes.bindOf (withTerm_found e .speed) (withTerm_writes e .speed)
  intro found? found
  split
  · exact .pure _
  · rename_i child term
    apply (changedSpeed_writes b _ fun type x _ =>
      .changeSpeed h ((found child term).1 rfl).1 type x).bind
    intro target
    exact (frames_reading term _).writes.bind fun _ => .pure _

theorem accel_writes (b : Bullet) (h : e.kind = .accel) :
    Writes s (Sequences.Writes s.document f.parameters e) (accel e b f.parameters) := by
  unfold accel
  split
  · exact (Writes.report _).bind fun _ => .pure _
  · dsimp only
    have writes (axis : Axis) (current : Binary32) :
        Writes s (Sequences.Writes s.document f.parameters e)
          (component axis e current f.parameters) :=
      component_writes axis current _ fun _ found type x _ => .component axis h found type x
    apply (writes .horizontal _).bind
    intro horizontal
    apply (writes .vertical _).bind
    intro vertical
    exact (frames_reading _ _).writes.bind fun _ => .pure _

theorem fires_writes {fire : Element} {q : Parameters} (b : Bullet)
    (fires : Fires s.document f.parameters e fire q) :
    Writes s (Sequences.Writes s.document f.parameters e) (Exec.fire fire b q) :=
  fire_writes b q (fun x _ => .aim fires x) fun x speed _ => .handOver fires x speed

end Commands

/-- No command does more to the sequences. -/
theorem command_writes (e : Element) (b : Bullet) (f : Frame) :
    Writes s (Sequences.Writes s.document f.parameters e) (command e b f) := by
  unfold command
  split
  · exact wait_writes e f
  · exact .pure _
  · exact repetition_writes e f
  · rename_i kind
    exact (fires_writes b (.own kind)).bind fun _ => .pure _
  · rename_i kind
    apply Writes.bindOf (resolve_found e) (resolve_reading e).writes
    intro found? found
    split
    · obtain ⟨d, named, rfl⟩ := found _ rfl
      apply Writes.bindOf (arguments_gives e f.parameters) (arguments_reading e _).writes
      intro q passes
      exact (fires_writes b (.reference kind named passes)).bind fun _ => .pure _
    · exact .pure _
  · rename_i kind
    exact changeDirection_writes b kind
  · rename_i kind
    exact changeSpeed_writes b kind
  · rename_i kind
    exact accel_writes b kind
  · exact action_writes e f
  · exact action_writes e f
  · exact (Writes.report _).bind fun _ => .pure _

end Exec

/-- What no command ever breaks holds of the sequences after a step if it did before. -/
theorem Engine.step_lasting {I : Sequences → Prop} {e : Engine}
    (lasting : ∀ p command last last', Sequences.Writes e.setup.document p command last last' →
      I last → I last')
    (h : I e.memory.sequences) (b : Bullet) : I (e.step b).1.memory.sequences := by
  rcases e.step_cases b with ⟨-, stack, eq⟩ | ⟨top, rest, command, runs⟩
  · rw [eq]
    exact h
  · rw [e.step_runs runs]
    exact (Exec.command_writes command b top.frame).keeps (lasting _ _) h

end Danmaku
