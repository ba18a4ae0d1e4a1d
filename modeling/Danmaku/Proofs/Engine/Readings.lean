import Danmaku.Proofs.Engine.Life
import Danmaku.Proofs.Engine.Trace

/-!
# Readings

Much of what a command does is to read: it evaluates texts, looks references up and reports what is
wrong with them. What does no more than that leaves the sequences alone, and would come to the same
with any others (`Reading.apart`); it hands no bullet over and limits no repetition
(`Reading.events`).
-/

namespace Danmaku

/-- Tells that a repetition is limited. -/
def Event.limits : Event → Bool
  | .fault (.repeatLimit ..) => true
  | _ => false

namespace Memory

def withSequences (m : Memory) (sequences : Sequences) : Memory := { m with sequences }

@[simp]
theorem withSequences_sequences (m : Memory) (last : Sequences) :
    (m.withSequences last).sequences = last := rfl

@[simp]
theorem withSequences_self (m : Memory) : m.withSequences m.sequences = m := rfl

theorem withSequences_under (m : Memory) (last : Sequences) (p : Parameters) :
    (m.withSequences last).under p = m.under p := rfl

end Memory

namespace Exec

/-- Put together of the values of texts, of what the setup says, and of reports. -/
inductive Reading : {α : Type} → Exec α → Prop
  | pure {α : Type} (a : α) : Reading (Pure.pure a : Exec α)
  | bind {α β : Type} {x : Exec α} {f : α → Exec β} (hx : Reading x)
      (hf : ∀ a, Reading (f a)) : Reading (x >>= f)
  | setup : Reading setup
  | evaluate (text : String) (p : Parameters) : Reading (evaluate text p)
  | emit (event : Event) (stays : event.bullet? = none) (unlimited : event.limits = false) :
      Reading (emit event)

namespace Reading

variable {α : Type} {x : Exec α}

theorem report (cause : Fault) (unlimited : (Event.fault cause).limits = false) :
    Reading (report cause) :=
  .emit _ rfl unlimited

/-- A reading does not depend on the sequences. -/
theorem apart (h : Reading x) (s : Setup) (m : Memory) (last : Sequences) :
    x s (m.withSequences last) =
      ⟨(x s m).value, (x s m).memory.withSequences last, (x s m).events⟩ := by
  induction h generalizing m with
  | pure a => rfl
  | bind _ _ ihx ihf => simp only [bind_run, ihx, ihf]
  | setup => rfl
  | evaluate text p =>
    rw [evaluate_eq, evaluate_eq, Memory.withSequences_under]
    generalize (m.under p).evaluate text = evaluated
    rfl
  | emit event => rfl

/-- A reading leaves the sequences alone. -/
theorem sequences (h : Reading x) (s : Setup) (m : Memory) :
    (x s m).memory.sequences = m.sequences := by
  have same := h.apart s m m.sequences
  rw [m.withSequences_self] at same
  exact congrArg (fun o => o.memory.sequences) same

theorem events (h : Reading x) (s : Setup) (m : Memory) :
    (x s m).events.filterMap Event.bullet? = [] ∧ (x s m).events.filter Event.limits = [] := by
  induction h generalizing m with
  | pure a => exact ⟨rfl, rfl⟩
  | bind _ _ ihx ihf => simp [bind_run, ihx, ihf]
  | setup => exact ⟨rfl, rfl⟩
  | evaluate text p =>
    constructor
    · rw [List.filterMap_eq_nil_iff]
      intro event mem
      exact ((evaluate_gives text p m).2 event mem).bullet?_eq_none
    · rw [List.filter_eq_nil_iff]
      intro event mem
      simp only [Exec.evaluate, List.mem_map] at mem
      obtain ⟨index, -, rfl⟩ := mem
      exact Bool.false_ne_true
  | emit event stays unlimited => simp [Exec.emit, stays, unlimited]

end Reading

theorem value_reading (e : Element) (p : Parameters) : Reading (value e p) := by
  unfold value
  apply (Reading.evaluate e.body p).bind
  intro result
  split
  · split
    · exact .pure _
    · exact (Reading.report _ rfl).bind fun _ => .pure _
  · exact (Reading.report _ rfl).bind fun _ => .pure _

theorem frames_reading (e : Element) (p : Parameters) : Reading (frames e p) :=
  (value_reading e p).bind fun _ => .pure _

theorem values_reading (p : Parameters) (es : List Element) : Reading (values p es) := by
  induction es with
  | nil => exact .pure _
  | cons e rest ih => exact (value_reading e p).bind fun _ => ih.bind fun _ => .pure _

theorem resolve_reading (reference : Element) : Reading (resolve reference) := by
  unfold resolve
  apply Reading.setup.bind
  intro s
  split
  · exact .pure _
  · exact (Reading.report _ rfl).bind fun _ => .pure _

theorem arguments_reading (reference : Element) (p : Parameters) :
    Reading (arguments reference p) :=
  (values_reading p _).bind fun _ => .pure _

theorem actionOf_reading (e : Element) (p : Parameters) : Reading (actionOf e p) := by
  unfold actionOf
  split
  · apply (resolve_reading e).bind
    intro found
    split
    · exact (arguments_reading e p).bind fun _ => .pure _
    · exact .pure _
  · exact .pure _

theorem cursorOf_reading (e : Element) (p : Parameters) (depth : Nat) :
    Reading (cursorOf e p depth) := by
  unfold cursorOf entered
  apply (actionOf_reading e p).bind
  intro called
  split
  · apply Reading.setup.bind
    intro s
    split
    · exact (Reading.report _ rfl).bind fun _ => .pure _
    · exact .pure _
  · exact .pure _

theorem template_reading (fire : Element) (p : Parameters) : Reading (template fire p) := by
  unfold template
  split
  · exact .pure _
  · split
    · apply (resolve_reading _).bind
      intro found
      split
      · exact (arguments_reading _ p).bind fun _ => .pure _
      · exact .pure _
    · exact (Reading.report _ rfl).bind fun _ => .pure _

theorem templateCursors_reading (p : Parameters) (es : List Element) :
    Reading (templateCursors p es) := by
  induction es with
  | nil => exact .pure _
  | cons e rest ih =>
    unfold templateCursors
    split
    · apply (actionOf_reading e p).bind
      intro called
      split
      · exact ih.bind fun _ => .pure _
      · exact ih
    · exact ih

end Exec

namespace Engine

variable {α : Type} {x : Exec α}

theorem run_sequences (e : Engine) (h : x.Reading) :
    (e.run x).1.memory.sequences = e.memory.sequences :=
  h.sequences e.setup e.memory

theorem run_bullets (e : Engine) (h : x.Reading) :
    (e.run x).2.2.filterMap Event.bullet? = [] :=
  (h.events e.setup e.memory).1

end Engine

end Danmaku
