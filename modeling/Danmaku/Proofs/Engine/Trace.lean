import Danmaku.Proofs.Engine.Gives
import Danmaku.Proofs.Expression.Evaluator

/-!
# What executions read

An execution reads the values of texts, and what the sequences have come to. `Exec.Traced` says of
all that an execution may read, whatever the values are, what it has read and fired when it ends;
other ways to the memory there are none. So a run reads the values that the memory gives to the
texts (`Traced.run`), and two memories that give the same values come to the same
(`Traced.agree`).
-/

namespace Danmaku

/-- One reading. -/
inductive Access where
  /-- The value of an element under parameters. -/
  | value (e : Element) (p : Parameters) (x : Binary32)
  /-- What the sequences have come to, on behalf of an element. -/
  | resume (e : Element)

theorem Event.Aside.bullet?_eq_none {event : Event} (h : event.Aside) :
    event.bullet? = none := by
  cases event with
  | fired => exact h.elim
  | _ => rfl

namespace Evaluation

/-- The value, or 0 if there is none that is finite. -/
def worth (v : Evaluation) : Binary32 :=
  match v.value with
  | .ok x => if x.isFinite then x else 0
  | .error _ => 0

/-- What is reported of the value of an element of a kind. -/
def events (v : Evaluation) (kind : Kind) : List Event :=
  v.defaulted.map .defaulted ++
    match v.value with
    | .ok x => if x.isFinite then [] else [.fault (.nonFinite kind x)]
    | .error cause => [.fault (.expression kind cause)]

end Evaluation

namespace Memory

/-- The evaluator under parameters, with the next random number. -/
def under (m : Memory) (p : Parameters) : Evaluator :=
  m.evaluator.within p m.random.nextUnit.1

def evaluation (m : Memory) (e : Element) (p : Parameters) : Evaluation :=
  (m.under p).evaluateAnew e.body

theorem under_faithful {m : Memory} (h : m.evaluator.Faithful) (p : Parameters) :
    (m.under p).Faithful :=
  h.within p m.random.nextUnit.1

theorem under_evaluate (m : Memory) (p : Parameters) (text : String) :
    ((m.under p).evaluate text).2.rank = m.evaluator.rank ∧
      ((m.under p).evaluate text).2.policy = m.evaluator.policy ∧
      (m.evaluator.Faithful → ((m.under p).evaluate text).2.Faithful) := by
  unfold under
  generalize m.random.nextUnit.1 = random
  have faithful (h : m.evaluator.Faithful) := Evaluator.evaluate_faithful (h.within p random) text
  obtain ⟨cache, keeps⟩ := (m.evaluator.within p random).evaluate_keeps text
  generalize (m.evaluator.within p random).evaluate text = evaluated at *
  refine ⟨?_, ?_, faithful⟩
  · rw [keeps, Evaluator.within]
  · rw [keeps, Evaluator.within]

/-- What is sure of the memory after a text has been evaluated. -/
structure Drawn (m m' : Memory) : Prop where
  rank : m'.evaluator.rank = m.evaluator.rank
  policy : m'.evaluator.policy = m.evaluator.policy
  random : m'.random = m.random.nextUnit.2
  sequences : m'.sequences = m.sequences
  faithful : m.evaluator.Faithful → m'.evaluator.Faithful

end Memory

namespace Exec

variable {s : Setup} {m : Memory}

theorem evaluate_eq (text : String) (p : Parameters) (s : Setup) (m : Memory) :
    evaluate text p s m =
      ⟨((m.under p).evaluate text).1.value,
        { m with
          evaluator := ((m.under p).evaluate text).2
          random := m.random.nextUnit.2 },
        ((m.under p).evaluate text).1.defaulted.map .defaulted⟩ := by
  simp only [evaluate, Memory.under, Evaluator.within]

theorem evaluate_run (h : m.evaluator.Faithful) (e : Element) (p : Parameters) :
    (evaluate e.body p s m).value = (m.evaluation e p).value ∧
      (evaluate e.body p s m).events = (m.evaluation e p).defaulted.map .defaulted := by
  rw [evaluate_eq, Memory.evaluation, ← Evaluator.evaluate_anew (Memory.under_faithful h p)]
  constructor
  · dsimp only
  · dsimp only

theorem evaluate_drawn (text : String) (p : Parameters) :
    m.Drawn (evaluate text p s m).memory := by
  obtain ⟨rank, policy, faithful⟩ := Memory.under_evaluate m p text
  rw [evaluate_eq]
  generalize (m.under p).evaluate text = evaluated at *
  exact ⟨rank, policy, rfl, rfl, faithful⟩

theorem value_run (h : m.evaluator.Faithful) (e : Element) (p : Parameters) :
    (value e p s m).value = (m.evaluation e p).worth ∧
      (value e p s m).memory = (evaluate e.body p s m).memory ∧
      (value e p s m).events = (m.evaluation e p).events e.kind := by
  obtain ⟨result, defaulted⟩ := evaluate_run (s := s) h e p
  rw [value, bind_run, result, defaulted, Evaluation.worth, Evaluation.events]
  generalize (evaluate e.body p s m).memory = after
  cases (m.evaluation e p).value with
  | error cause => exact ⟨rfl, rfl, rfl⟩
  | ok x =>
    by_cases finite : x.isFinite = true
    · simp only [finite, ↓reduceIte]
      exact ⟨rfl, rfl, rfl⟩
    · simp only [finite, Bool.false_eq_true, ↓reduceIte]
      exact ⟨rfl, rfl, rfl⟩

theorem value_drawn (h : m.evaluator.Faithful) (e : Element) (p : Parameters) :
    m.Drawn (value e p s m).memory := by
  rw [(value_run h e p).2.1]
  exact evaluate_drawn e.body p

end Exec

/-! ## Traces -/

namespace Exec

variable {α β : Type} {s : Setup} {R : List Access → List Bullet → α → Prop}

/-- Whatever the values are that it reads, what an execution has read and fired and its result are
in `R`. The sequences may change at any time. -/
inductive Traced (s : Setup) {α : Type} :
    (List Access → List Bullet → α → Prop) → Exec α → Prop
  | pure {R : List Access → List Bullet → α → Prop} {a : α} (h : R [] [] a) :
      Traced s R (Pure.pure a)
  | setup {R : List Access → List Bullet → α → Prop} {f : Setup → Exec α} (h : Traced s R (f s)) :
      Traced s R (setup >>= f)
  | value {R : List Access → List Bullet → α → Prop} {e : Element} {p : Parameters}
      {f : Binary32 → Exec α}
      (h : ∀ x, Traced s (fun trace => R (.value e p x :: trace)) (f x)) :
      Traced s R (value e p >>= f)
  | resume {R : List Access → List Bullet → α → Prop} (e : Element) {f : Sequences → Exec α}
      (h : ∀ last, Traced s (fun trace => R (.resume e :: trace)) (f last)) :
      Traced s R (sequences >>= f)
  | store {R : List Access → List Bullet → α → Prop} (change : Sequences → Sequences)
      {f : Unit → Exec α} (h : Traced s R (f ())) :
      Traced s R (sequences >>= fun last => setSequences (change last) >>= f)
  | emit {R : List Access → List Bullet → α → Prop} {event : Event} {f : Unit → Exec α}
      (h : Traced s (fun trace fired => R trace (event.bullet?.toList ++ fired)) (f ())) :
      Traced s R (emit event >>= f)

namespace Traced

theorem mono {R' : List Access → List Bullet → α → Prop} {x : Exec α} (h : Traced s R x)
    (le : ∀ trace fired a, R trace fired a → R' trace fired a) : Traced s R' x := by
  induction h generalizing R' with
  | pure h => exact .pure (le _ _ _ h)
  | setup _ ih => exact .setup (ih le)
  | value _ ih => exact .value fun x => ih x fun trace => le (_ :: trace)
  | resume e _ ih => exact .resume e fun last => ih last fun trace => le (_ :: trace)
  | store change _ ih => exact .store change (ih le)
  | emit _ ih => exact .emit (ih fun trace fired => le trace (_ ++ fired))

/-- An execution after another reads and fires what is left of `R'`. -/
theorem bind {R' : List Access → List Bullet → β → Prop} {x : Exec α} {f : α → Exec β}
    (h : Traced s R x) (next : ∀ trace fired a, R trace fired a →
      Traced s (fun trace' fired' => R' (trace ++ trace') (fired ++ fired')) (f a)) :
    Traced s R' (x >>= f) := by
  induction h generalizing R' with
  | pure h =>
    rw [pure_bind]
    exact next [] [] _ h
  | setup _ ih =>
    rw [bind_assoc]
    exact .setup (ih next)
  | value _ ih =>
    rw [bind_assoc]
    exact .value fun x => ih x fun trace => next (_ :: trace)
  | resume e _ ih =>
    rw [bind_assoc]
    exact .resume e fun last => ih last fun trace => next (_ :: trace)
  | store change _ ih =>
    simp only [bind_assoc]
    exact .store change (ih next)
  | emit _ ih =>
    rw [bind_assoc]
    refine .emit (ih fun trace fired a h => ?_)
    simpa only [List.append_assoc] using next trace (_ ++ fired) a h

theorem setSequences (sequences : Sequences) {f : Unit → Exec α} (h : Traced s R (f ())) :
    Traced s R (setSequences sequences >>= f) :=
  store (fun _ => sequences) h

theorem report {cause : Fault} {f : Unit → Exec α} (h : Traced s R (f ())) :
    Traced s R (report cause >>= f) :=
  emit h

/-- Some trace there is. -/
theorem inhabited {x : Exec α} (h : Traced s R x) : ∃ trace fired a, R trace fired a := by
  induction h with
  | pure h => exact ⟨_, _, _, h⟩
  | setup _ ih => exact ih
  | value _ ih =>
    obtain ⟨trace, fired, a, h⟩ := ih 0
    exact ⟨_, _, _, h⟩
  | resume e _ ih =>
    obtain ⟨trace, fired, a, h⟩ := ih .start
    exact ⟨_, _, _, h⟩
  | store change _ ih => exact ih
  | emit _ ih =>
    obtain ⟨trace, fired, a, h⟩ := ih
    exact ⟨_, _, _, h⟩

end Traced

/-- The readings of a run from one memory to another: each text has the value that it has in the
memory at the time. -/
inductive Follows (s : Setup) : Memory → List Access → Memory → Prop
  | done (m : Memory) : Follows s m [] m
  | value (e : Element) (p : Parameters) {m m' : Memory} {trace : List Access}
      (h : Follows s (evaluate e.body p s m).memory trace m') :
      Follows s m (.value e p (m.evaluation e p).worth :: trace) m'
  | resume (e : Element) {m m' : Memory} {trace : List Access} (h : Follows s m trace m') :
      Follows s m (.resume e :: trace) m'
  | store (sequences : Sequences) {m m' : Memory} {trace : List Access}
      (h : Follows s { m with sequences } trace m') : Follows s m trace m'

/-- The rules of evaluation never change, and what is remembered of the texts stays right. -/
theorem Follows.keeps {m m' : Memory} {trace : List Access} (h : Follows s m trace m') :
    m'.evaluator.rank = m.evaluator.rank ∧ m'.evaluator.policy = m.evaluator.policy ∧
      (m.evaluator.Faithful → m'.evaluator.Faithful) := by
  induction h with
  | done => exact ⟨rfl, rfl, id⟩
  | @value e p m m' trace _ ih =>
    obtain ⟨rank, policy, faithful⟩ := ih
    have drawn : m.Drawn (evaluate e.body p s m).memory := evaluate_drawn e.body p
    exact ⟨rank.trans drawn.rank, policy.trans drawn.policy, fun h => faithful (drawn.faithful h)⟩
  | resume e _ ih => exact ih
  | store sequences _ ih => exact ih

theorem value_fires (e : Element) (p : Parameters) (m : Memory) :
    (value e p s m).events.filterMap Event.bullet? = [] :=
  List.filterMap_eq_nil_iff.2 fun event mem =>
    Event.Aside.bullet?_eq_none ((value_gives e p m).2 event mem)

/-- A run reads one of the traces. -/
theorem Traced.run {x : Exec α} (h : Traced s R x) {m : Memory} (faithful : m.evaluator.Faithful) :
    ∃ trace, Follows s m trace (x s m).memory ∧
      R trace ((x s m).events.filterMap Event.bullet?) (x s m).value := by
  induction h generalizing m with
  | pure h => exact ⟨[], .done m, h⟩
  | setup _ ih => exact ih faithful
  | @value R e p f _ ih =>
    have drawn := value_drawn (s := s) faithful e p
    obtain ⟨trace, follows, h⟩ := ih (Exec.value e p s m).value (drawn.faithful faithful)
    obtain ⟨worth, memory, -⟩ := value_run (s := s) faithful e p
    rw [bind_run, List.filterMap_append, value_fires, List.nil_append]
    rw [worth, memory] at follows h ⊢
    exact ⟨_, Follows.value e p follows, h⟩
  | resume e _ ih =>
    obtain ⟨trace, follows, h⟩ := ih m.sequences faithful
    exact ⟨_, Follows.resume e follows, h⟩
  | store change _ ih =>
    obtain ⟨trace, follows, h⟩ := ih (m := { m with sequences := change m.sequences }) faithful
    exact ⟨trace, .store _ follows, h⟩
  | @emit R event f _ ih =>
    obtain ⟨trace, follows, h⟩ := ih faithful
    refine ⟨trace, follows, ?_⟩
    rw [bind_run]
    simp only [Exec.emit, List.filterMap_append]
    cases fired : event.bullet? <;> simpa [fired] using h

/-! ## Two runs -/

/-- The same result and the same events, and memories that are related. -/
structure Same (Rel : Memory → Memory → Prop) (o o' : Outcome α) : Prop where
  value : o.value = o'.value
  events : o.events = o'.events
  memory : Rel o.memory o'.memory

/-- No reading within `Ok` tells related memories apart. -/
structure Hides (s : Setup) (Ok : Access → Prop) (Rel : Memory → Memory → Prop) : Prop where
  value {m m' : Memory} {e : Element} {p : Parameters} {x : Binary32} (ok : Ok (.value e p x))
    (h : Rel m m') : Same Rel (value e p s m) (value e p s m')
  resume {m m' : Memory} {e : Element} (ok : Ok (.resume e)) (h : Rel m m') :
    m.sequences = m'.sequences
  store {m m' : Memory} (change : Sequences → Sequences) (h : Rel m m') :
    Rel { m with sequences := change m.sequences } { m' with sequences := change m'.sequences }

theorem Same.bind {Rel : Memory → Memory → Prop} {x : Exec α} {f : α → Exec β} {m m' : Memory}
    (h : Same Rel (x s m) (x s m'))
    (next : ∀ {m m'}, Rel m m' → ∀ a, Same Rel (f a s m) (f a s m')) :
    Same Rel ((x >>= f) s m) ((x >>= f) s m') := by
  have later := next h.memory (x s m').value
  rw [bind_run, bind_run, h.value, h.events]
  exact ⟨later.value, by rw [later.events], later.memory⟩

/-- Two runs that are told apart by none of the readings come to the same. -/
theorem Traced.agree {Ok : Access → Prop} {Rel : Memory → Memory → Prop} (hides : Hides s Ok Rel)
    {x : Exec α} (h : Traced s R x)
    (ok : ∀ trace fired a, R trace fired a → ∀ access ∈ trace, Ok access) {m m' : Memory}
    (rel : Rel m m') : Same Rel (x s m) (x s m') := by
  induction h generalizing m m' with
  | pure => exact ⟨rfl, rfl, rel⟩
  | setup _ ih => exact ih ok rel
  | value h ih =>
    -- This reading begins every trace, so any of them shows that it is within `Ok`.
    obtain ⟨trace, fired, a, inR⟩ := (h 0).inhabited
    have here := hides.value (ok _ fired a inR _ List.mem_cons_self) rel
    refine here.bind fun rel x => ih x (fun trace fired a h access mem => ?_) rel
    exact ok _ fired a h access (List.mem_cons_of_mem _ mem)
  | @resume R e f h ih =>
    obtain ⟨trace, fired, a, inR⟩ := (h .start).inhabited
    have same := hides.resume (ok _ fired a inR _ List.mem_cons_self) rel
    show Same Rel (f m.sequences s m) (f m'.sequences s m')
    rw [same]
    refine ih m'.sequences (fun trace fired a h access mem => ?_) rel
    exact ok _ fired a h access (List.mem_cons_of_mem _ mem)
  | store change _ ih => exact ih ok (hides.store change rel)
  | @emit R event f _ ih =>
    have here : Same Rel (Exec.emit event s m) (Exec.emit event s m') := ⟨rfl, rfl, rel⟩
    exact here.bind fun rel _ => ih (fun trace fired a h => ok trace _ a h) rel

end Exec

end Danmaku
