import Danmaku.Proofs.Engine.Ceiling
import Danmaku.Proofs.Engine.Fire

/-!
# Commands that fail

A command fails when something that it needs is missing, names nothing, nests too deep, or when it
is no command at all (`Exec.Fails`). By then it may have read something, but what it does last is to
report the failure (`Exec.GivesUp`). So the step passes the command over, and nothing else comes of
it (`Engine.failure_atomic`).
-/

namespace Danmaku

/-- The commands of an action. -/
def Kind.isCommand : Kind → Bool
  | wait | vanish | repetition | fire | fireRef | changeDirection | changeSpeed | accel | action
  | actionRef => true
  | _ => false

/-- The children that a command of a kind needs in any case, in the order in which they are
missed. -/
def Kind.needs : Kind → List Kind
  | changeDirection => [direction, term]
  | changeSpeed => [speed, term]
  | accel => [term]
  | repetition => [times]
  | _ => []

/-- The action that an action or a reference to one stands for. -/
def Document.called? (d : Document) (e : Element) : Option Element :=
  if e.kind = .actionRef then (d.resolve? e).map (·.element) else some e

/-- What keeps an action, or a reference to one, from being entered at a depth. -/
inductive Setup.Refuses (s : Setup) (e : Element) (depth : Nat) : Fault → Prop
  | unresolved (kind : e.kind = .actionRef) (nothing : s.document.resolve? e = none) :
      Refuses s e depth (.unresolved .actionRef ((e.attribute? "label").getD ""))
  | tooDeep {action : Element} (called : s.document.called? e = some action)
      (deep : s.settings.maxDepth < depth) :
      Refuses s e depth (.tooDeep (action.label?.getD "") depth)

/-- What keeps the body of a repetition from being entered at a depth. -/
inductive Setup.RefusesBody (s : Setup) (e : Element) (depth : Nat) : Fault → Prop
  | missing (nothing : e.children.find? (·.kind.isAction) = none) :
      RefusesBody s e depth (.missingChild .repetition .action)
  | refused {body : Element} {cause : Fault}
      (first : e.children.find? (·.kind.isAction) = some body)
      (refuses : s.Refuses body depth cause) : RefusesBody s e depth cause

namespace Exec

/-- Why a command fails. -/
inductive Fails (s : Setup) (m : Memory) (f : Frame) (e : Element) : Fault → Prop
  | unresolved (kind : e.kind = .fireRef) (nothing : s.document.resolve? e = none) :
      Fails s m f e (.unresolved .fireRef ((e.attribute? "label").getD ""))
  | missing {child : Kind} (first : e.kind.needs.find? (fun k => (e.child? k).isNone) = some child) :
      Fails s m f e (.missingChild e.kind child)
  | repetition {cause : Fault} (repeats : (again e f.parameters s m).value = true)
      (refuses : s.RefusesBody e (f.depth + 1) cause) : Fails s m f e cause
  | action {cause : Fault} (kind : e.kind.isAction = true)
      (refuses : s.Refuses e (f.target e) cause) : Fails s m f e cause
  | unexpected (kind : e.kind.isCommand = false) : Fails s m f e (.unexpected e.kind)

/-- The execution comes to nothing: what it does last is to report the cause, and before that it
hands nothing over and leaves the sequences alone. -/
structure GivesUp {α : Type} (s : Setup) (m : Memory) (cause : Fault) (nothing : α)
    (x : Exec α) : Prop where
  value : (x s m).value = nothing
  sequences : (x s m).memory.sequences = m.sequences
  events : ∃ before, (x s m).events = before ++ [.fault cause] ∧
    before.filterMap Event.bullet? = []

namespace GivesUp

variable {α β : Type} {s : Setup} {m : Memory} {cause : Fault} {a : α} {b : β}

theorem report (cause : Fault) (a : α) : GivesUp s m cause a (report cause >>= fun _ => pure a) where
  value := rfl
  sequences := rfl
  events := ⟨[], rfl, rfl⟩

/-- Giving up after something that has handed nothing over and left the sequences alone. -/
theorem after {x : Exec α} {f : α → Exec β}
    (sequences : (x s m).memory.sequences = m.sequences)
    (held : (x s m).events.filterMap Event.bullet? = [])
    (h : GivesUp s (x s m).memory cause b (f (x s m).value)) : GivesUp s m cause b (x >>= f) := by
  obtain ⟨before, events, none⟩ := h.events
  constructor
  · exact h.value
  · exact h.sequences.trans sequences
  · refine ⟨(x s m).events ++ before, ?_, ?_⟩
    · rw [bind_run, List.append_assoc, ← events]
    · rw [List.filterMap_append, held, none, List.append_nil]

theorem afterReading {x : Exec α} {f : α → Exec β} (reading : Reading x)
    (h : GivesUp s (x s m).memory cause b (f (x s m).value)) : GivesUp s m cause b (x >>= f) :=
  .after (reading.sequences s m) (reading.events s m).1 h

/-- Nothing is done with what has come to nothing. -/
theorem bind {x : Exec α} {f : α → Exec β} (h : GivesUp s m cause a x) (idle : f a = pure b) :
    GivesUp s m cause b (x >>= f) := by
  obtain ⟨before, events, none⟩ := h.events
  rw [← h.value] at idle
  constructor
  · rw [bind_run, idle, pure_run]
  · rw [bind_run, idle]
    exact h.sequences
  · refine ⟨before, ?_, none⟩
    rw [bind_run, idle, pure_run, List.append_nil, events]

end GivesUp

variable {s : Setup} {m : Memory} {e : Element} {f : Frame} {cause : Fault}

theorem resolve_givesUp (nothing : s.document.resolve? e = none) :
    GivesUp s m (.unresolved e.kind ((e.attribute? "label").getD "")) none (resolve e) := by
  apply GivesUp.afterReading .setup
  simp only [setup, nothing]
  exact .report _ _

theorem entered_givesUp (action : Element) (p : Parameters) {depth : Nat}
    (deep : s.settings.maxDepth < depth) :
    GivesUp s m (.tooDeep (action.label?.getD "") depth) none (entered action p depth) := by
  apply GivesUp.afterReading .setup
  simp only [setup, deep, ↓reduceIte]
  exact .report _ _

theorem actionOf_givesUp (kind : e.kind = .actionRef) (nothing : s.document.resolve? e = none)
    (p : Parameters) :
    GivesUp s m (.unresolved .actionRef ((e.attribute? "label").getD "")) none (actionOf e p) := by
  rw [actionOf, if_pos kind, ← kind]
  exact (resolve_givesUp nothing).bind rfl

theorem actionOf_called {action : Element} (called : s.document.called? e = some action)
    (p : Parameters) (m : Memory) : ∃ q, (actionOf e p s m).value = some (action, q) := by
  unfold Document.called? at called
  unfold actionOf
  by_cases kind : e.kind = .actionRef
  · rw [if_pos kind] at called ⊢
    rw [bind_run, resolve_value, called]
    exact ⟨_, rfl⟩
  · rw [if_neg kind] at called ⊢
    cases called
    exact ⟨p, rfl⟩

theorem cursorOf_givesUp {depth : Nat} (refuses : s.Refuses e depth cause) (p : Parameters) :
    GivesUp s m cause none (cursorOf e p depth) := by
  unfold cursorOf
  cases refuses with
  | unresolved kind nothing => exact (actionOf_givesUp kind nothing p).bind rfl
  | tooDeep called deep =>
    obtain ⟨q, value⟩ := actionOf_called called p m
    apply GivesUp.afterReading (actionOf_reading e p)
    rw [value]
    exact entered_givesUp _ q deep

theorem action_givesUp (kind : e.kind.isAction = true) (refuses : s.Refuses e (f.target e) cause) :
    GivesUp s m cause .nothing (action e f) := by
  rw [Frame.target, kind, Bool.true_and] at refuses
  exact (cursorOf_givesUp refuses f.parameters).bind rfl

theorem withTerm_givesUp {kind child : Kind}
    (first : [kind, .term].find? (fun k => (e.child? k).isNone) = some child) :
    GivesUp s m (.missingChild e.kind child) none (withTerm e kind) := by
  unfold withTerm
  cases given : e.child? kind with
  | none =>
    obtain rfl : kind = child := by simpa [given] using first
    exact .report _ _
  | some _ =>
    cases term : e.child? .term with
    | none =>
      obtain rfl : .term = child := by simpa [given, term] using first
      exact .report _ _
    | some _ => simp [given, term] at first

theorem accel_givesUp (none : e.child? .term = none) (b : Bullet) (p : Parameters) :
    GivesUp s m (.missingChild .accel .term) .nothing (accel e b p) := by
  rw [accel, none]
  exact .report _ _

theorem repetition_untimed (none : e.child? .times = none) :
    GivesUp s m (.missingChild .repetition .times) .nothing (repetition e f) := by
  rw [repetition, none]
  exact .report _ _

theorem repetition_givesUp (repeats : (again e f.parameters s m).value = true)
    (refuses : s.RefusesBody e (f.depth + 1) cause) :
    GivesUp s m cause .nothing (repetition e f) := by
  obtain ⟨-, times, given, positive⟩ := repeats_of_again repeats
  have more := Binary32.not_le_of_lt positive
  unfold repetition
  rw [given]
  apply GivesUp.afterReading (value_reading times f.parameters)
  simp only [more, Bool.false_eq_true, ↓reduceIte]
  -- The count does not matter, but its being too large is reported first.
  obtain ⟨memory, held⟩ := repetitions_quiet (value times f.parameters s m).value.round s
    (value times f.parameters s m).memory
  apply GivesUp.after (congrArg Memory.sequences memory) held
  cases refuses with
  | missing nothing =>
    rw [nothing]
    exact .report _ _
  | refused first refuses =>
    rw [first]
    exact (cursorOf_givesUp refuses f.parameters).bind rfl

theorem command_missing {child : Kind} (b : Bullet)
    (first : e.kind.needs.find? (fun k => (e.child? k).isNone) = some child) :
    GivesUp s m (.missingChild e.kind child) .nothing (command e b f) := by
  have only {k : Kind} (first : [k].find? (fun k => (e.child? k).isNone) = some child) :
      e.child? k = none ∧ k = child := by
    simpa using first
  cases kind : e.kind with
  | changeDirection =>
    rw [kind] at first
    simp only [command, kind, changeDirection]
    rw [← kind]
    exact (withTerm_givesUp first).bind rfl
  | changeSpeed =>
    rw [kind] at first
    simp only [command, kind, changeSpeed]
    rw [← kind]
    exact (withTerm_givesUp first).bind rfl
  | accel =>
    rw [kind] at first
    obtain ⟨none, rfl⟩ := only first
    simp only [command, kind]
    exact accel_givesUp none b f.parameters
  | repetition =>
    rw [kind] at first
    obtain ⟨none, rfl⟩ := only first
    simp only [command, kind]
    exact repetition_untimed none
  | _ =>
    rw [kind] at first
    cases first

theorem command_givesUp (b : Bullet) (fails : Fails s m f e cause) :
    GivesUp s m cause .nothing (command e b f) := by
  cases fails with
  | unresolved kind nothing =>
    simp only [command, kind]
    rw [← kind]
    exact (resolve_givesUp nothing).bind rfl
  | repetition repeats refuses =>
    simp only [command, (repeats_of_again repeats).1]
    exact repetition_givesUp repeats refuses
  | action isAction refuses =>
    have same : command e b f = action e f := by
      cases kind : e.kind <;> simp_all [command, Kind.isAction]
    rw [same]
    exact action_givesUp isAction refuses
  | unexpected none =>
    have same : command e b f = report (.unexpected e.kind) >>= fun _ => pure .nothing := by
      cases kind : e.kind <;> simp_all [command, Kind.isCommand]
    rw [same]
    exact .report _ _
  | missing first => exact command_missing b first

end Exec

/-- **A command that fails is passed over.** The step reports the failure, whatever it may have
reported before, and fires nothing. It goes past the command and leaves all else of the bullet as it
is, and of the engine all but its random numbers and what its evaluator keeps. The next step goes on
with the action. -/
theorem Engine.failure_atomic {e : Engine} {b : Bullet} {top : Cursor} {rest : List Cursor}
    {command : Element} {cause : Fault} (runs : b.Runs top rest command)
    (fails : Exec.Fails e.setup e.memory top.frame command cause) :
    ∃ evaluator random before,
      e.step b = ({ e with memory := ⟨evaluator, random, e.memory.sequences⟩ },
        ({ b with stack := top.advance :: rest }, true), before ++ [.fault cause]) ∧
      (e.step b).2.2.filterMap Event.bullet? = [] ∧
      ∀ b' : Bullet, b'.stack = top.advance :: rest → b'.Proceeds top rest := by
  obtain ⟨value, sequences, before, events, held⟩ := Exec.command_givesUp b fails
  have step := e.step_runs runs
  generalize Exec.command command b top.frame e.setup e.memory = done at value sequences events step
  simp only [value, events, Effect.apply, Effect.event?, Option.toList_none, List.append_nil]
    at step
  refine ⟨done.memory.evaluator, done.memory.random, before, ?_, ?_, fun b' => runs.proceeds⟩
  · rw [step, ← sequences]
  · rw [step, List.filterMap_append, held]
    rfl

/-- A repetition of an action one level deeper. -/
def deeper : Element :=
  .make .repetition [] none
    [.leaf .times "2", .make .actionRef [("label", "top")] none [.leaf .param "$rand"]]

/-- An action that repeats itself, and then ends its bullet. -/
def deepening : Element :=
  .make .action [("label", "top")] none [deeper, .leaf .vanish ""]

/-- An engine that plays it and allows no nesting. -/
def playsFlat : Engine :=
  .make (.ofRoot (.make .bulletml [] none [deepening]) []) { maxDepth := 0 }

theorem deepening_passed :
    let b := playsFlat.shooter deepening .zero
    ∃ before, (playsFlat.step b).2.2 = before ++ [.fault (.tooDeep "top" 1)] ∧
      (playsFlat.step b).2.1.1.Runs (Cursor.enter deepening .empty 0).advance []
        (.leaf .vanish "") := by
  intro b
  let top := Cursor.enter deepening .empty 0
  have runs : b.Runs top [] deeper := ⟨rfl, rfl, rfl⟩
  have repeats : (Exec.again deeper top.frame.parameters playsFlat.setup playsFlat.memory).value =
      true := by
    decide +kernel
  have called : playsFlat.setup.document.called?
      (.make .actionRef [("label", "top")] none [.leaf .param "$rand"]) = some deepening := rfl
  have refuses : playsFlat.setup.RefusesBody deeper 1 (.tooDeep "top" 1) :=
    .refused rfl (.tooDeep called (by decide))
  obtain ⟨evaluator, random, before, step, -, proceeds⟩ :=
    Engine.failure_atomic runs (.repetition repeats refuses)
  refine ⟨before, ?_, ?_⟩
  · rw [step]
  · rw [step]
    exact (proceeds _ rfl).next _ rfl

end Danmaku
