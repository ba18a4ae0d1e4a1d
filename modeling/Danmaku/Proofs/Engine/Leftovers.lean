import Danmaku.Proofs.Engine.Scope
import Danmaku.Proofs.Engine.Trailing
import Danmaku.Proofs.Host

/-!
# What evaluation leaves behind

The evaluator of an engine holds the parameters and the random number of the last text, and the
expressions of all texts that it has read. None of them reaches a later step: a step reads
everything under parameters of its own, which come from the topmost cursor. `readings_lexical` says
so for whatever a host may do with an engine.
-/

namespace Danmaku

namespace Memory

/-- The same rules of evaluation, and nothing remembered wrong. -/
structure Akin (m m' : Memory) : Prop where
  rank : m'.evaluator.rank = m.evaluator.rank
  policy : m'.evaluator.policy = m.evaluator.policy
  faithful : m.evaluator.Faithful
  faithful' : m'.evaluator.Faithful

/-- The same but for what evaluation has left behind. -/
structure Agrees (m m' : Memory) : Prop extends Akin m m' where
  random : m'.random = m.random
  sequences : m'.sequences = m.sequences

theorem Agrees.evaluation {m m' : Memory} (h : m.Agrees m') (e : Element) (p : Parameters) :
    m'.evaluation e p = m.evaluation e p := by
  unfold Memory.evaluation under
  rw [h.random]
  exact Evaluator.within_congr h.rank h.policy p _ e.body

theorem Akin.drawn {m m' n n' : Memory} (h : m.Akin m') (drawn : m.Drawn n)
    (drawn' : m'.Drawn n') : n.Akin n' where
  rank := by rw [drawn'.rank, drawn.rank, h.rank]
  policy := by rw [drawn'.policy, drawn.policy, h.policy]
  faithful := drawn.faithful h.faithful
  faithful' := drawn'.faithful h.faithful'

end Memory

namespace Exec

variable {s : Setup}

/-- An element that comes to the same in two memories has the same value, with the same events. -/
theorem value_same {Rel : Memory → Memory → Prop} {m m' : Memory} (h : m.Akin m') {e : Element}
    {p : Parameters} (same : m'.evaluation e p = m.evaluation e p)
    (rel : Rel (value e p s m).memory (value e p s m').memory) :
    Same Rel (value e p s m) (value e p s m') := by
  obtain ⟨worth, -, events⟩ := value_run (s := s) h.faithful e p
  obtain ⟨worth', -, events'⟩ := value_run (s := s) h.faithful' e p
  constructor
  · rw [worth, worth', same]
  · rw [events, events', same]
  · exact rel

/-- What evaluation has left behind is not read. -/
theorem hides_leftovers : Hides s (fun _ => True) Memory.Agrees where
  value {m m' e p x} _ h := by
    refine value_same h.toAkin (h.evaluation e p) ?_
    have drawn := value_drawn (s := s) h.faithful e p
    have drawn' := value_drawn (s := s) h.faithful' e p
    refine ⟨h.toAkin.drawn drawn drawn', ?_, ?_⟩
    · rw [drawn'.random, drawn.random, h.random]
    · rw [drawn'.sequences, drawn.sequences, h.sequences]
  resume _ h := h.sequences.symm
  store change h := { h with sequences := by rw [h.sequences] }

theorem step_keeps (b : Bullet) {m : Memory} (h : m.evaluator.Faithful) :
    m.Akin (step Cursor.frame b s m).memory := by
  obtain ⟨trace, follows, -⟩ := (step_traced b).run (s := s) h
  obtain ⟨rank, policy, faithful⟩ := follows.keeps
  exact ⟨rank, policy, h, faithful h⟩

end Exec

/-- Whatever a host does, nothing is remembered wrong. -/
theorem Host.run_faithful {h : Host} (faithful : h.engine.memory.evaluator.Faithful)
    (deeds : List Deed) : (h.run deeds).1.engine.memory.evaluator.Faithful := by
  refine run_keeps (P := fun h => h.engine.memory.evaluator.Faithful) ?_ faithful deeds
  intro h deed faithful
  cases deed with
  | step i =>
    simp only [act]
    split
    · exact (Exec.step_keeps _ faithful).faithful'
    · exact faithful
  | integrate i dt =>
    simp only [act]
    split
    · exact faithful
    · exact faithful
  | adjust a => cases a <;> exact faithful

theorem Engine.make_faithful (document : Document) (settings : Settings) :
    (make document settings).memory.evaluator.Faithful :=
  fun _ mem => absurd mem List.not_mem_nil

/-- A cursor without its parameters. -/
def Cursor.unbound (c : Cursor) : Cursor := { c with parameters := .empty }

/-- The same bullet but for the parameters of the cursors below the topmost. -/
structure Bullet.SameOnTop (b b' : Bullet) : Prop where
  unstacked : b'.unstacked = b.unstacked
  top : b'.stack.head? = b.stack.head?
  below : b'.stack.map Cursor.unbound = b.stack.map Cursor.unbound

/-- Both bullets have lost the same number of cursors and got the same new ones, and are the same
otherwise. -/
structure Bullet.SameAfter (b b' after after' : Bullet) : Prop where
  unstacked : after'.unstacked = after.unstacked
  stack : ∃ made n, after.stack = made ++ b.stack.drop n ∧ after'.stack = made ++ b'.stack.drop n

theorem Bullet.restack {b b' : Bullet} (h : b'.unstacked = b.unstacked) :
    b' = { b with stack := b'.stack } := by
  cases b
  cases b'
  simp_all [unstacked]

theorem Effect.apply_sameAfter {b b' : Bullet} {top : Cursor} {rest rest' : List Cursor}
    (unstacked : b'.unstacked = b.unstacked) (stack : b.stack = top :: rest)
    (stack' : b'.stack = top :: rest') (length : rest'.length = rest.length) (effect : Effect) :
    b.SameAfter b' (effect.apply b top rest).1 (effect.apply b' top rest').1 ∧
      (effect.apply b' top rest').2 = (effect.apply b top rest).2 := by
  rw [Bullet.restack unstacked, stack']
  -- All effects but one keep the cursors below the topmost.
  have above (made : List Cursor) : ∃ made' n, made ++ rest = made' ++ b.stack.drop n ∧
      made ++ rest' = made' ++ (top :: rest').drop n := ⟨made, 1, by simp [stack]⟩
  cases effect with
  | finish =>
    refine ⟨⟨rfl, above []⟩, ?_⟩
    cases rest <;> cases rest' <;> simp_all [apply]
  | vanish =>
    have none : ∃ made n, ([] : List Cursor) = made ++ b.stack.drop n ∧
        [] = made ++ (top :: rest').drop n := ⟨[], rest.length + 1, by simp [stack, length]⟩
    exact ⟨⟨rfl, none⟩, rfl⟩
  | enter count cursor =>
    have entered := above (List.replicate count cursor ++ [top.advance])
    simp only [List.append_assoc, List.singleton_append] at entered
    exact ⟨⟨rfl, entered⟩, rfl⟩
  | wait frames => exact ⟨⟨rfl, above [{ top.advance with wait := frames }]⟩, rfl⟩
  | replace cursor => exact ⟨⟨rfl, above [cursor]⟩, rfl⟩
  | _ => exact ⟨⟨rfl, above [top.advance]⟩, rfl⟩

/-- What two bullets have come to by a step each, with the same events and in the same memory. -/
structure Exec.SameStep (b b' : Bullet) (o o' : Outcome (Bullet × Bool)) : Prop where
  bullet : b.SameAfter b' o.value.1 o'.value.1
  more : o'.value.2 = o.value.2
  events : o'.events = o.events
  memory : o'.memory = o.memory

/-- A step does not see the parameters below the topmost cursor. -/
theorem Exec.step_sameOnTop {b b' : Bullet} (h : b.SameOnTop b') (s : Setup) (m : Memory) :
    SameStep b b' (step Cursor.frame b s m) (step Cursor.frame b' s m) := by
  obtain ⟨unstacked, head, below⟩ := h
  cases stack : b.stack with
  | nil =>
    rw [stack] at below
    have stack' : b'.stack = [] := List.map_eq_nil_iff.1 below
    rw [step_nil stack, step_nil stack']
    exact ⟨⟨unstacked, [], 0, rfl, rfl⟩, rfl, rfl, rfl⟩
  | cons top rest =>
    rw [stack] at head below
    obtain ⟨rest', stack'⟩ := List.head?_eq_some_iff.1 head
    have length : rest'.length = rest.length := by
      simpa [stack'] using congrArg List.length below
    by_cases waiting : 0 < top.wait
    · simp only [step, stack, stack', waiting, ↓reduceIte, pure_run]
      refine ⟨⟨unstacked, [{ top with wait := top.wait - 1 }], 1, ?_, ?_⟩, rfl, rfl, rfl⟩
      · simp [stack]
      · simp [stack']
    have idle : top.wait = 0 := by omega
    cases at_ : top.command? with
    | none =>
      have ended := (Effect.finish).apply_sameAfter unstacked stack stack' length
      simp only [step, stack, stack', waiting, at_, ↓reduceIte, pure_run]
      exact ⟨ended.1, ended.2, rfl, rfl⟩
    | some e =>
      have command' : command e b' top.frame = command e b top.frame := by
        rw [Bullet.restack unstacked, command_restack]
      rw [step_perform stack idle at_, step_perform stack' idle at_, perform_run, perform_run,
        command']
      have applied :=
        (command e b top.frame s m).value.apply_sameAfter unstacked stack stack' length
      exact ⟨applied.1, applied.2, rfl, rfl⟩

/-! ## Steps -/

theorem Parameters.lookup_range' (xs : List Binary32) (start index : Nat) :
    ((List.range' start xs.length).zip xs).lookup index =
      if index < start then none else xs[index - start]? := by
  induction xs generalizing start with
  | nil => simp
  | cons x rest ih =>
    simp only [List.length_cons, List.range'_succ, List.zip_cons_cons, List.lookup_cons, ih]
    rcases Nat.lt_trichotomy index start with lt | rfl | gt
    · have ne : (index == start) = false := by simp; omega
      simp [lt, ne, Nat.lt_succ_of_lt lt]
    · simp
    · obtain ⟨k, rfl⟩ := Nat.exists_eq_add_of_lt gt
      have ne : (start + k + 1 == start) = false := by simp; omega
      have less : ¬ start + k + 1 < start + 1 := by omega
      have less' : ¬ start + k + 1 < start := by omega
      have shift : start + k + 1 - start = k + 1 := by omega
      have shift' : start + k + 1 - (start + 1) = k := by omega
      simp [ne, less, less', shift, shift']

/-- The values are those of the parameters from 1 on. -/
theorem Parameters.get?_ofValues (xs : List Binary32) (index : Nat) :
    (ofValues xs).get? index = if index = 0 then none else xs[index - 1]? := by
  simp only [ofValues, get?, lookup_range', Nat.lt_one_iff]

/-- What two bullets have come to by a step each, with the same events, and with the same random
numbers and sequences afterwards. -/
structure Engine.SameStep (b b' : Bullet) (r r' : Engine × (Bullet × Bool) × List Event) :
    Prop where
  bullet : b.SameAfter b' r.2.1.1 r'.2.1.1
  more : r'.2.1.2 = r.2.1.2
  events : r'.2.2 = r.2.2
  random : r'.1.memory.random = r.1.memory.random
  sequences : r'.1.memory.sequences = r.1.memory.sequences

theorem Engine.step_sameStep {e e' : Engine} {b b' : Bullet} (setup : e'.setup = e.setup)
    (agrees : e.memory.Agrees e'.memory) (h : b.SameOnTop b') :
    SameStep b b' (e.step b) (e'.step b') := by
  have memories := (Exec.step_traced b).agree (Exec.hides_leftovers (s := e.setup))
    (fun _ _ _ _ _ _ => trivial) agrees
  have bullets := Exec.step_sameOnTop h e.setup e'.memory
  simp only [step, run, setup]
  constructor
  · rw [memories.value]
    exact bullets.bullet
  · rw [memories.value]
    exact bullets.more
  · rw [memories.events]
    exact bullets.events
  · rw [bullets.memory]
    exact memories.memory.random
  · rw [bullets.memory]
    exact memories.memory.sequences

/-- **Readings are lexical, and nothing is left over.** Whatever a host has done with an engine, a
step of a bullet reads its texts under the parameters of the topmost cursor, or under those that
the references on the way pass on, for any values of the texts, and so for those of the engine.
Of the parameters, the random number and the texts that the evaluator has kept, and of the
parameters of the other cursors, nothing comes into the step. -/
theorem readings_lexical (document : Document) (settings : Settings) (bullets : List Bullet)
    (deeds : List Deed) (b : Bullet) :
    let e := ((⟨.make document settings, bullets⟩ : Host).run deeds).1.engine
    Exec.Traced e.setup (fun trace fired result =>
        Lexical.Steps document b trace (fired.map (·.stack)) result)
      (Exec.step Cursor.frame b) ∧
    (∃ trace, Exec.Follows e.setup e.memory trace (e.step b).1.memory ∧
      Lexical.Steps document b trace
        (((e.step b).2.2.filterMap Event.bullet?).map (·.stack)) (e.step b).2.1) ∧
    (∀ xs index, (Parameters.ofValues xs).get? index =
      if index = 0 then none else xs[index - 1]?) ∧
    ∀ (b' : Bullet) (parameters : Parameters) (random : Binary32)
      (cache : List (String × Expression)),
      b.SameOnTop b' → (∀ entry ∈ cache, Expression.parse entry.1 = .ok entry.2) →
      Engine.SameStep b b' (e.step b)
        ({ e with
          memory.evaluator := { e.memory.evaluator with parameters, random, cache } }.step b') := by
  intro e
  have plays : e.setup.document = document := by
    have alike := Host.run_keeps (P := fun h => h.engine.setup.document = document)
      (fun h deed plays => (h.act_alike deed).document.trans plays)
      (h := ⟨.make document settings, bullets⟩) rfl deeds
    exact alike
  have faithful : e.memory.evaluator.Faithful :=
    Host.run_faithful (Engine.make_faithful document settings) deeds
  have traced := Exec.step_traced (s := e.setup) b
  rw [plays] at traced
  refine ⟨traced, traced.run faithful, Parameters.get?_ofValues, ?_⟩
  intro b' parameters random cache same parsed
  exact Engine.step_sameStep rfl ⟨⟨rfl, rfl, faithful, parsed⟩, rfl, rfl⟩ same

/-- An action that passes its parameter on to what it fires. -/
def relay : Element :=
  .make .action [("label", "top")] none
    [.make .fire [] none
      [.make .bulletRef [("label", "shot")] none [.leaf .param "$1 / 0", .leaf .param "$1"]]]

/-- The pattern of the action that passes its parameter on. -/
def relaying : Document :=
  .ofRoot (.make .bulletml [] none
    [relay, .make .bullet [("label", "shot")] none [.make .action [] none [.leaf .wait "$2"]]]) []

/-- A bullet within the action, under some parameters, and called from the action under others. -/
def relayer (above below : Parameters) : Bullet :=
  { Bullet.make .zero 0 1 .xy with stack := [.enter relay above 1, .enter relay below 0] }

theorem relaying_lexical :
    let e := Engine.make relaying {}
    let b := relayer (.ofValues [3]) .empty
    let b' := relayer (.ofValues [3]) (.ofValues [9])
    let e' := { e with memory.evaluator :=
      { e.memory.evaluator with
        parameters := .ofValues [7], random := 5, cache := [("$1", .var (.parameter 1))] } }
    ((e.step b).2.2.filterMap Event.bullet?).map (·.stack.map (·.parameters)) =
        [[.ofValues [0, 3]]] ∧
      Engine.SameStep b b' (e.step b) (e'.step b') := by
  have parsed : ∀ entry ∈ [("$1", Expression.var (.parameter 1))],
      Expression.parse entry.1 = .ok entry.2 := by
    intro entry mem
    rw [List.mem_singleton.1 mem]
    rfl
  refine ⟨by decide +kernel, ?_⟩
  exact (readings_lexical relaying {} [] [] (relayer (.ofValues [3]) .empty)).2.2.2
    (relayer (.ofValues [3]) (.ofValues [9])) _ _ _ ⟨rfl, rfl, rfl⟩ parsed

end Danmaku
