import Danmaku.Engine.Command

/-!
# What executions give

`Exec.Gives` says of an execution, whatever the memory it starts from, what its value and each of
its events are like. It goes through binds, so a fact about a command is put together from facts
about its parts. Here are those about values, references and the parameters passed on.
-/

namespace Danmaku

/-- An event that neither hands a bullet over nor tells of a depth. -/
def Event.Aside : Event → Prop
  | .fired _ => False
  | .fault (.tooDeep ..) => False
  | _ => True

namespace Exec

variable {α β : Type} {s : Setup} {P : α → Prop} {Q : Event → Prop}

/-- Whatever the memory, the value is in `P` and each event is in `Q`. -/
def Gives (s : Setup) (P : α → Prop) (Q : Event → Prop) (x : Exec α) : Prop :=
  ∀ m, P (x s m).value ∧ ∀ event ∈ (x s m).events, Q event

namespace Gives

theorem pure {a : α} (h : P a) : Gives s P Q (Pure.pure a) := by
  intro m
  exact ⟨h, by simp [pure_run]⟩

theorem bind {R : β → Prop} {x : Exec α} {f : α → Exec β} (hx : Gives s P Q x)
    (hf : ∀ a, P a → Gives s R Q (f a)) : Gives s R Q (x >>= f) := by
  intro m
  obtain ⟨value, events⟩ := hx m
  obtain ⟨value', events'⟩ := hf _ value (x s m).memory
  refine ⟨value', fun event mem => ?_⟩
  rw [bind_run] at mem
  rcases List.mem_append.1 mem with mem | mem
  · exact events event mem
  · exact events' event mem

theorem mono {P' : α → Prop} {Q' : Event → Prop} {x : Exec α} (h : Gives s P Q x)
    (hP : ∀ a, P a → P' a) (hQ : ∀ event, Q event → Q' event) : Gives s P' Q' x := by
  intro m
  exact ⟨hP _ (h m).1, fun event mem => hQ event ((h m).2 event mem)⟩

/-- What the value is like, whatever the events. -/
theorem forget {x : Exec α} (h : Gives s P Q x) : Gives s P (fun _ => True) x :=
  h.mono (fun _ => id) fun _ _ => trivial

theorem any (x : Exec α) : Gives s (fun _ => True) (fun _ => True) x :=
  fun _ => ⟨trivial, fun _ _ => trivial⟩

theorem setup : Gives s (· = s) Q setup := by
  intro m
  exact ⟨rfl, by simp [Exec.setup]⟩

theorem sequences : Gives s (fun _ => True) Q sequences := by
  intro m
  exact ⟨trivial, by simp [Exec.sequences]⟩

theorem setSequences (last : Sequences) : Gives s (fun _ => True) Q (setSequences last) := by
  intro m
  exact ⟨trivial, by simp [Exec.setSequences]⟩

theorem emit {event : Event} (h : Q event) : Gives s (fun _ => True) Q (emit event) := by
  intro m
  exact ⟨trivial, by simpa [Exec.emit] using h⟩

theorem report {cause : Fault} (h : Q (.fault cause)) :
    Gives s (fun _ => True) Q (report cause) :=
  emit h

end Gives

theorem evaluate_gives (text : String) (p : Parameters) :
    Gives s (fun _ => True) Event.Aside (evaluate text p) := by
  intro m
  refine ⟨trivial, fun event mem => ?_⟩
  simp only [evaluate, List.mem_map] at mem
  obtain ⟨index, -, rfl⟩ := mem
  trivial

/-- Every value of an element is finite. -/
theorem value_gives (e : Element) (p : Parameters) :
    Gives s (fun x => x.isFinite = true) Event.Aside (value e p) := by
  unfold value
  refine (evaluate_gives _ _).bind fun result _ => ?_
  split
  · split
    · exact .pure ‹_›
    · exact (Gives.report trivial).bind fun _ _ => .pure rfl
  · exact (Gives.report trivial).bind fun _ _ => .pure rfl

theorem frames_gives (e : Element) (p : Parameters) :
    Gives s (fun _ => True) Event.Aside (frames e p) :=
  (value_gives e p).bind fun _ _ => .pure trivial

theorem values_gives (p : Parameters) (es : List Element) :
    Gives s (fun xs => xs.length = es.length ∧ ∀ x ∈ xs, x.isFinite = true) Event.Aside
      (values p es) := by
  induction es with
  | nil => exact .pure (by simp)
  | cons e rest ih =>
    refine (value_gives e p).bind fun x hx => ih.bind fun xs hxs => .pure ⟨?_, ?_⟩
    · simp [hxs.1]
    · simpa [hx] using hxs.2

/-- A value that goes on from the last one of a sequence. -/
theorem nextOf_gives {f : Sequences → Sequences} {g : Sequences → α} :
    Gives s (fun _ => True) Q (do
      let last ← sequences
      setSequences (f last)
      return g last) :=
  Gives.sequences.bind fun _ _ => (Gives.setSequences _).bind fun _ _ => .pure trivial

theorem aim_gives (source : Bullet) : Gives s (fun _ => True) Event.Aside (aim source) :=
  Gives.setup.bind fun _ _ => .pure trivial

theorem direction_gives (e : Element) (source : Bullet) (p : Parameters) :
    Gives s (fun _ => True) Event.Aside (direction e source p) := by
  unfold direction
  refine (value_gives e p).bind fun x _ => Gives.setup.bind fun s' _ => ?_
  split
  · exact (aim_gives source).bind fun _ _ => .pure trivial
  · exact .pure trivial
  · exact .pure trivial
  · exact nextOf_gives

theorem firedSpeed_gives (e : Element) (source : Bullet) (p : Parameters) :
    Gives s (fun _ => True) Event.Aside (firedSpeed e source p) := by
  unfold firedSpeed
  refine (value_gives e p).bind fun x _ => ?_
  split
  · exact .pure trivial
  · exact .pure trivial
  · exact Gives.sequences.bind fun _ _ => .pure trivial

theorem changedSpeed_gives (e : Element) (source : Bullet) (p : Parameters) :
    Gives s (fun _ => True) Event.Aside (changedSpeed e source p) := by
  unfold changedSpeed
  refine (value_gives e p).bind fun x _ => ?_
  split
  · exact .pure trivial
  · exact .pure trivial
  · exact nextOf_gives

theorem component_gives (axis : Axis) (command : Element) (current : Binary32) (p : Parameters) :
    Gives s (fun _ => True) Event.Aside (component axis command current p) := by
  unfold component
  split
  · exact .pure trivial
  · refine (value_gives _ p).bind fun x _ => ?_
    split
    · exact .pure trivial
    · exact .pure trivial
    · exact nextOf_gives

end Exec

end Danmaku
