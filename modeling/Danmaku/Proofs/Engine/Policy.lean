import Danmaku.Proofs.Engine.Composed
import Danmaku.Proofs.Engine.Trace
import Danmaku.Proofs.Host

/-!
# Reporting parameters without a value

An engine that reports parameters without a value does the same as one that takes them as 0, as
long as it has none to report: the same bullets, the same events, and the same state but for the
policy itself; and it has one to report just when the other takes one as 0 (`policy_indifferent`).
Either way the reason is that every parameter of an expression has a binding, whether the
expression was remembered or not.
-/

namespace Danmaku

/-- No parameter without a value was reported. -/
def Bound (events : List Event) : Prop := ∀ event ∈ events, event.unbound = false

/-- No parameter was taken as 0. -/
def Supplied (events : List Event) : Prop := ∀ event ∈ events, event.defaults = false

instance (events : List Event) : Decidable (Bound events) :=
  inferInstanceAs (Decidable (∀ event ∈ events, event.unbound = false))

theorem bound_append {before after : List Event} :
    Bound (before ++ after) ↔ Bound before ∧ Bound after :=
  List.forall_mem_append

theorem supplied_append {before after : List Event} :
    Supplied (before ++ after) ↔ Supplied before ∧ Supplied after :=
  List.forall_mem_append

theorem bound_nil : Bound [] := fun _ mem => absurd mem List.not_mem_nil

theorem supplied_nil : Supplied [] := fun _ mem => absurd mem List.not_mem_nil

namespace Evaluator

def withPolicy (v : Evaluator) (policy : UnboundPolicy) : Evaluator := { v with policy }

variable {v : Evaluator}

/-- Every parameter of the expression has a binding. -/
def Supplies (v : Evaluator) (e : Expression) : Prop :=
  ∀ index ∈ e.parameters, (v.parameters.get? index).isSome

theorem eval_withPolicy (policy : UnboundPolicy) {e : Expression} (supplies : v.Supplies e) :
    ∃ x, e.eval v.scope = .ok x ∧ e.eval (v.withPolicy policy).scope = .ok x := by
  induction e with
  | number value => exact ⟨value, rfl, rfl⟩
  | var name =>
    cases name with
    | rank => exact ⟨v.rank, rfl, rfl⟩
    | random => exact ⟨v.random, rfl, rfl⟩
    | parameter index =>
      obtain ⟨x, bound⟩ := Option.isSome_iff_exists.1 (supplies index List.mem_cons_self)
      refine ⟨x, ?_, ?_⟩ <;>
        simp [Expression.eval, Scope.value, scope, parameter?, withPolicy, bound]
  | negate operand ih =>
    obtain ⟨x, given, given'⟩ := ih supplies
    refine ⟨-x, ?_, ?_⟩
    · rw [Expression.eval, given]
      rfl
    · rw [Expression.eval, given']
      rfl
  | binary operator l r ihl ihr =>
    obtain ⟨left, right⟩ := List.forall_mem_append.1 supplies
    obtain ⟨x, givenl, givenl'⟩ := ihl left
    obtain ⟨y, givenr, givenr'⟩ := ihr right
    refine ⟨operator.apply x y, ?_, ?_⟩
    · rw [Expression.eval, givenl, givenr]
      rfl
    · rw [Expression.eval, givenl', givenr']
      rfl

/-- Where parameters without a value are reported, an expression has a value only if there are
none. -/
theorem supplies_of_eval (reports : v.policy = .report) {e : Expression} {x : Binary32}
    (given : e.eval v.scope = .ok x) : v.Supplies e := by
  induction e generalizing x with
  | number => exact fun _ mem => absurd mem List.not_mem_nil
  | var name =>
    cases name with
    | rank => exact fun _ mem => absurd mem List.not_mem_nil
    | random => exact fun _ mem => absurd mem List.not_mem_nil
    | parameter index =>
      intro other mem
      rw [List.mem_singleton.1 mem]
      cases bound : v.parameters.get? index with
      | some => rfl
      | none => simp [Expression.eval, Scope.value, scope, parameter?, bound, reports] at given
  | negate operand ih =>
    cases inner : operand.eval v.scope with
    | error =>
      rw [Expression.eval, inner] at given
      cases given
    | ok y => exact ih inner
  | binary operator l r ihl ihr =>
    cases left : l.eval v.scope with
    | error =>
      rw [Expression.eval, left] at given
      cases given
    | ok y =>
      cases right : r.eval v.scope with
      | error =>
        rw [Expression.eval, left, right] at given
        cases given
      | ok z => exact List.forall_mem_append.2 ⟨ihl left, ihr right⟩

/-- An evaluation without a parameter that lacks its value. -/
structure Settled (r : Evaluation) : Prop where
  bound : ∀ index, r.value ≠ .error (.unbound index)
  supplied : r.defaulted = []

theorem Settled.ok (x : Binary32) : Settled ⟨.ok x, []⟩ := by
  refine ⟨fun index h => ?_, rfl⟩
  cases h

theorem Settled.malformed (place : Text.Position) : Settled ⟨.error (.malformed place), []⟩ := by
  refine ⟨fun index h => ?_, rfl⟩
  cases h

theorem evaluateExpression_withPolicy (reports : v.policy = .report) {e : Expression}
    (clear : (∀ index, (v.evaluateExpression e).value ≠ .error (.unbound index)) ∨
      ((v.withPolicy .zero).evaluateExpression e).defaulted = []) :
    (v.withPolicy .zero).evaluateExpression e = v.evaluateExpression e ∧
      Settled (v.evaluateExpression e) := by
  have supplies : v.Supplies e := by
    rcases clear with bound | supplied
    · cases given : e.eval v.scope with
      | error index => exact absurd (by simp [evaluateExpression, given]) (bound index)
      | ok x => exact supplies_of_eval reports given
    · intro index mem
      have bound := List.filter_eq_nil_iff.1 supplied index mem
      simpa [withPolicy, Option.isSome_iff_ne_none] using bound
  obtain ⟨x, given, given'⟩ := eval_withPolicy .zero supplies
  have supplied : (v.withPolicy .zero).defaulted e.parameters = [] := by
    refine List.filter_eq_nil_iff.2 fun index mem => ?_
    simpa [withPolicy] using Option.isSome_iff_ne_none.1 (supplies index mem)
  have told : v.defaulted e.parameters = [] := by simp [defaulted, reports]
  simp only [evaluateExpression, given, given', supplied, told]
  exact ⟨trivial, .ok x⟩

/-- A text that lacks the value of no parameter has the same value under either policy. -/
theorem evaluate_withPolicy (reports : v.policy = .report) {text : String}
    (clear : (∀ index, (v.evaluate text).1.value ≠ .error (.unbound index)) ∨
      ((v.withPolicy .zero).evaluate text).1.defaulted = []) :
    (v.withPolicy .zero).evaluate text =
        ((v.evaluate text).1, (v.evaluate text).2.withPolicy .zero) ∧
      Settled (v.evaluate text).1 := by
  have cache : (v.withPolicy .zero).cache = v.cache := rfl
  unfold evaluate at clear ⊢
  dsimp only at clear ⊢
  rw [cache] at clear ⊢
  split
  · exact ⟨rfl, .ok 0⟩
  · rename_i full
    rw [if_neg full, if_neg full] at clear
    cases found : v.cache.lookup (Text.trim text) with
    | some e =>
      simp only [found] at clear ⊢
      obtain ⟨same, settled⟩ := evaluateExpression_withPolicy reports clear
      exact ⟨by rw [same], settled⟩
    | none =>
      simp only [found] at clear ⊢
      cases parsed : Expression.parse (Text.trim text) with
      | error place => exact ⟨rfl, .malformed place⟩
      | ok e =>
        simp only [parsed] at clear ⊢
        obtain ⟨same, settled⟩ := evaluateExpression_withPolicy reports clear
        refine ⟨?_, settled⟩
        rw [same]
        rfl

end Evaluator

/-! ## Executions -/

def Memory.withPolicy (m : Memory) (policy : UnboundPolicy) : Memory :=
  { m with evaluator := m.evaluator.withPolicy policy }

namespace Memory

theorem random_withPolicy (m : Memory) (policy : UnboundPolicy) :
    (m.withPolicy policy).random = m.random := rfl

theorem under_withPolicy (m : Memory) (policy : UnboundPolicy) (p : Parameters) :
    (m.withPolicy policy).under p = (m.under p).withPolicy policy := by
  rw [under, under, random_withPolicy]
  generalize m.random.nextUnit.1 = random
  rfl

theorem under_policy (m : Memory) (p : Parameters) :
    (m.under p).policy = m.evaluator.policy := by
  rw [under, Evaluator.within]

end Memory

namespace Outcome

variable {α : Type}

def withPolicy (o : Outcome α) (policy : UnboundPolicy) : Outcome α :=
  { o with memory := o.memory.withPolicy policy }

end Outcome

namespace Exec

variable {α β : Type}

/-- From a memory that reports, the other policy leads to the same, the memory still reports, and
neither policy had anything to do. -/
structure Unaffected (x : Exec α) (s : Setup) (m : Memory) : Prop where
  same : x (s.withPolicy .zero) (m.withPolicy .zero) = (x s m).withPolicy .zero
  reports : (x s m).memory.evaluator.policy = .report
  bound : Bound (x s m).events
  supplied : Supplied (x s m).events

/-- Nothing is reported under the one policy, or nothing is taken as 0 under the other. -/
def Clear (x : Exec α) (s : Setup) (m : Memory) : Prop :=
  Bound (x s m).events ∨ Supplied (x (s.withPolicy .zero) (m.withPolicy .zero)).events

theorem Clear.first {x : Exec α} {f : α → Exec β} {s : Setup} {m : Memory}
    (h : Clear (x >>= f) s m) : Clear x s m := by
  rcases h with bound | supplied
  · exact .inl (bound_append.1 bound).1
  · exact .inr (supplied_append.1 supplied).1

theorem Clear.second {x : Exec α} {f : α → Exec β} {s : Setup} {m : Memory}
    (h : Clear (x >>= f) s m) (hx : Unaffected x s m) :
    Clear (f (x s m).value) s (x s m).memory := by
  rcases h with bound | supplied
  · exact .inl (bound_append.1 bound).2
  · rw [bind_run, hx.same] at supplied
    exact .inr (supplied_append.1 supplied).2

theorem Unaffected.bind {x : Exec α} {f : α → Exec β} {s : Setup} {m : Memory}
    (hx : Unaffected x s m) (hf : Unaffected (f (x s m).value) s (x s m).memory) :
    Unaffected (x >>= f) s m := by
  refine ⟨?_, hf.reports, bound_append.2 ⟨hx.bound, hf.bound⟩,
    supplied_append.2 ⟨hx.supplied, hf.supplied⟩⟩
  have later := hf.same
  rw [bind_run, bind_run, hx.same]
  simp only [Outcome.withPolicy] at later ⊢
  rw [later]

/-- Wherever parameters without a value are reported, and there are none, the policy makes no
difference. -/
def Indifferent (x : Exec α) : Prop :=
  ∀ s m, m.evaluator.policy = .report → Clear x s m → Unaffected x s m

namespace Indifferent

theorem pure (a : α) : Indifferent (Pure.pure a : Exec α) :=
  fun _ _ reports _ => ⟨rfl, reports, bound_nil, supplied_nil⟩

theorem bind {x : Exec α} {f : α → Exec β} (hx : Indifferent x) (hf : ∀ a, Indifferent (f a)) :
    Indifferent (x >>= f) := by
  intro s m reports clear
  have first := hx s m reports clear.first
  exact first.bind (hf _ s _ first.reports (clear.second first))

theorem read {f : Setup → Exec α} (blind : ∀ s policy, f (s.withPolicy policy) = f s)
    (hf : ∀ s, Indifferent (f s)) : Indifferent (setup >>= f) := by
  intro s m reports clear
  have run (s' : Setup) (m' : Memory) : (setup >>= f) s' m' = f s' s' m' := by
    rw [bind_run]
    simp only [setup, List.nil_append]
  rw [Clear, run, run, blind] at clear
  obtain ⟨same, reports', bound, supplied⟩ := hf s s m reports clear
  constructor
  · rw [run, run, blind, same]
  · rw [run]
    exact reports'
  · rw [run]
    exact bound
  · rw [run]
    exact supplied

theorem emit {event : Event} (other : event.lacking = false) : Indifferent (emit event) := by
  intro s m reports _
  obtain ⟨bound, supplied⟩ := Bool.or_eq_false_iff.1 other
  exact ⟨rfl, reports, List.forall_mem_singleton.2 bound, List.forall_mem_singleton.2 supplied⟩

end Indifferent

/-- A text is evaluated to the same unless it lacks the value of a parameter. -/
theorem evaluate_unaffected {text : String} {p : Parameters} {s : Setup} {m : Memory}
    (reports : m.evaluator.policy = .report)
    (clear : (∀ index, (evaluate text p s m).value ≠ .error (.unbound index)) ∨
      Supplied (evaluate text p (s.withPolicy .zero) (m.withPolicy .zero)).events) :
    Unaffected (evaluate text p) s m ∧
      ∀ index, (evaluate text p s m).value ≠ .error (.unbound index) := by
  have drawn : m.Drawn (evaluate text p s m).memory := evaluate_drawn text p
  have clear' : (∀ index, ((m.under p).evaluate text).1.value ≠ .error (.unbound index)) ∨
      (((m.under p).withPolicy .zero).evaluate text).1.defaulted = [] := by
    rw [evaluate_eq, evaluate_eq, m.under_withPolicy] at clear
    dsimp only at clear
    refine clear.imp_right fun supplied => List.eq_nil_iff_forall_not_mem.2 fun index mem => ?_
    cases supplied (.defaulted index) (List.mem_map_of_mem mem)
  obtain ⟨same, settled⟩ :=
    Evaluator.evaluate_withPolicy ((m.under_policy p).trans reports) clear'
  have told : (evaluate text p s m).events = [] := by
    rw [evaluate_eq, settled.supplied, List.map_nil]
  refine ⟨⟨?_, ?_, ?_, ?_⟩, ?_⟩
  · rw [evaluate_eq, evaluate_eq, m.under_withPolicy, same, m.random_withPolicy]
    generalize (m.under p).evaluate text = result
    generalize m.random.nextUnit.2 = random
    rfl
  · rw [drawn.policy, reports]
  · rw [told]
    exact bound_nil
  · rw [told]
    exact supplied_nil
  · rw [evaluate_eq]
    dsimp only
    exact settled.bound

theorem value_indifferent (e : Element) (p : Parameters) : Indifferent (value e p) := by
  intro s m reports clear
  rw [value] at clear ⊢
  obtain ⟨evaluated, bound⟩ : Unaffected (evaluate e.body p) s m ∧
      ∀ index, (evaluate e.body p s m).value ≠ .error (.unbound index) := by
    refine evaluate_unaffected reports ?_
    rcases clear with bound | supplied
    · left
      intro index lacks
      rw [bind_run, lacks] at bound
      cases (bound_append.1 bound).2 _ List.mem_cons_self
    · exact .inr (supplied_append.1 supplied).1
  -- The text has a value or is malformed, and what is reported of either is the same.
  refine evaluated.bind ?_
  have rest := clear.second evaluated
  generalize (evaluate e.body p s m).value = result at bound rest ⊢
  cases result with
  | ok x =>
    by_cases finite : x.isFinite = true
    · simp only [finite, ↓reduceIte] at rest ⊢
      exact Indifferent.pure x s _ evaluated.reports rest
    · simp only [finite, Bool.false_eq_true, ↓reduceIte] at rest ⊢
      exact (Indifferent.emit rfl).bind (fun _ => .pure _) s _ evaluated.reports rest
  | error cause =>
    cases cause with
    | unbound index => exact absurd rfl (bound index)
    | malformed place =>
      exact (Indifferent.emit rfl).bind (fun _ => .pure _) s _ evaluated.reports rest

theorem Composed.indifferent {x : Exec α} (h : Composed x) : Indifferent x := by
  induction h with
  | pure a => exact .pure a
  | bind _ _ ihx ihf => exact ihx.bind ihf
  | read blind _ ih => exact .read blind ih
  | value e p => exact value_indifferent e p
  | sequences => exact fun _ _ reports _ => ⟨rfl, reports, bound_nil, supplied_nil⟩
  | setSequences last => exact fun _ _ reports _ => ⟨rfl, reports, bound_nil, supplied_nil⟩
  | emit event other => exact .emit other

end Exec

/-! ## Hosts -/

namespace Engine

/-- The engine with a policy, which the settings name and the evaluator follows. -/
def withPolicy (e : Engine) (policy : UnboundPolicy) : Engine :=
  ⟨e.setup.withPolicy policy, e.memory.withPolicy policy⟩

/-- Parameters without a value are reported. -/
def Reports (e : Engine) : Prop := e.memory.evaluator.policy = .report

theorem step_unaffected {e : Engine} (reports : e.Reports) (b : Bullet)
    (clear : Bound (e.step b).2.2 ∨ Supplied ((e.withPolicy .zero).step b).2.2) :
    (e.withPolicy .zero).step b = ((e.step b).1.withPolicy .zero, (e.step b).2) ∧
      (e.step b).1.Reports ∧ Bound (e.step b).2.2 ∧ Supplied (e.step b).2.2 := by
  obtain ⟨same, reports', bound, supplied⟩ :=
    (Exec.step_composed Cursor.frame b).indifferent e.setup e.memory reports clear
  refine ⟨?_, reports', bound, supplied⟩
  simp only [step, run, withPolicy, same]
  rfl

theorem adjust_withPolicy (e : Engine) (policy : UnboundPolicy) (a : Adjustment) :
    (e.withPolicy policy).adjust a = (e.adjust a).withPolicy policy := by
  cases a <;> rfl

theorem adjust_reports {e : Engine} (reports : e.Reports) (a : Adjustment) :
    (e.adjust a).Reports := by
  cases a <;> exact reports

end Engine

namespace Host

def withPolicy (h : Host) (policy : UnboundPolicy) : Host :=
  { h with engine := h.engine.withPolicy policy }

/-- What has been done with a host that reports comes to the same under the other policy, and
neither had anything to do. -/
structure Unaffected (told taken : Host × List Event) : Prop where
  same : taken = (told.1.withPolicy .zero, told.2)
  reports : told.1.engine.Reports
  bound : Bound told.2
  supplied : Supplied told.2

theorem act_unaffected {h : Host} (reports : h.engine.Reports) (deed : Deed)
    (clear : Bound (h.act deed).2 ∨ Supplied ((h.withPolicy .zero).act deed).2) :
    Unaffected (h.act deed) ((h.withPolicy .zero).act deed) := by
  have bullets : (h.withPolicy .zero).bullets = h.bullets := rfl
  cases deed with
  | step i =>
    simp only [act, bullets] at clear ⊢
    cases found : h.bullets[i]? with
    | none => exact ⟨rfl, reports, bound_nil, supplied_nil⟩
    | some b =>
      simp only [found] at clear
      obtain ⟨same, reports', bound, supplied⟩ := Engine.step_unaffected reports b clear
      refine ⟨?_, reports', bound, supplied⟩
      have engine : (h.withPolicy .zero).engine = h.engine.withPolicy .zero := rfl
      simp only [engine, same]
      rfl
  | integrate i dt =>
    simp only [act, bullets]
    split
    · exact ⟨rfl, reports, bound_nil, supplied_nil⟩
    · exact ⟨rfl, reports, bound_nil, supplied_nil⟩
  | adjust a =>
    refine ⟨?_, Engine.adjust_reports reports a, bound_nil, supplied_nil⟩
    simp only [act, withPolicy, Engine.adjust_withPolicy]

theorem run_unaffected {h : Host} (reports : h.engine.Reports) (deeds : List Deed)
    (clear : Bound (h.run deeds).2 ∨ Supplied ((h.withPolicy .zero).run deeds).2) :
    Unaffected (h.run deeds) ((h.withPolicy .zero).run deeds) := by
  induction deeds generalizing h with
  | nil => exact ⟨rfl, reports, bound_nil, supplied_nil⟩
  | cons deed rest ih =>
    have now : Unaffected (h.act deed) ((h.withPolicy .zero).act deed) := by
      refine act_unaffected reports deed ?_
      rcases clear with bound | supplied
      · exact .inl (bound_append.1 bound).1
      · exact .inr (supplied_append.1 supplied).1
    have later : Unaffected ((h.act deed).1.run rest)
        (((h.act deed).1.withPolicy .zero).run rest) := by
      refine ih now.reports ?_
      rcases clear with bound | supplied
      · exact .inl (bound_append.1 bound).2
      · simp only [run, now.same] at supplied
        exact .inr (supplied_append.1 supplied).2
    refine ⟨?_, later.reports, bound_append.2 ⟨now.bound, later.bound⟩,
      supplied_append.2 ⟨now.supplied, later.supplied⟩⟩
    simp only [run, now.same, later.same]

/-- **Reporting changes nothing as long as there is nothing to report.** Of two hosts that differ
in the policy, whatever has been done with both, the one that takes parameters without a value as 0
has the same bullets, the same engine but for the policy, and the same events as the one that
reports them, unless that one has reported some; and that it has, just when the other has taken one
as 0. -/
theorem policy_indifferent (h : Host) (reports : h.engine.Reports) (deeds : List Deed) :
    let told := h.run deeds
    let taken := (h.withPolicy .zero).run deeds
    (Bound told.2 → taken = (told.1.withPolicy .zero, told.2) ∧ told.1.engine.Reports) ∧
      (Bound told.2 ↔ Supplied taken.2) := by
  intro told taken
  have agree := run_unaffected reports deeds
  refine ⟨fun bound => ?_, fun bound => ?_, fun supplied => (agree (.inr supplied)).bound⟩
  · obtain ⟨same, reports', -, -⟩ := agree (.inl bound)
    exact ⟨same, reports'⟩
  · obtain ⟨same, -, -, supplied⟩ := agree (.inl bound)
    show Supplied ((h.withPolicy .zero).run deeds).2
    rw [same]
    exact supplied

/-- A pattern that passes a wait on to what it fires. -/
def waiting : Document :=
  .ofRoot (.make .bulletml [] none
    [.make .action [("label", "top")] none
      [.make .fire [] none [.make .bulletRef [("label", "shot")] none [.leaf .param "1 + $rank"]]],
    .make .bullet [("label", "shot")] none [.make .action [] none [.leaf .wait "$1 * 2"]]]) []

/-- A host that plays it, with an engine that reports parameters without a value. -/
def reporting : Host :=
  let e := Engine.make waiting { policy := .report }
  ⟨e, [e.shooter ((waiting.top?.map (·.element)).getD default) .zero]⟩

theorem reporting_indifferent :
    let deeds : List Deed := [.adjust (.rank 3), .step 0, .step 1, .integrate 1 1, .step 0]
    (reporting.run deeds).1.bullets.length = 2 ∧
      (reporting.withPolicy .zero).run deeds =
        ((reporting.run deeds).1.withPolicy .zero, (reporting.run deeds).2) := by
  intro deeds
  have bound : Bound (reporting.run deeds).2 := by decide +kernel
  exact ⟨by decide +kernel, ((policy_indifferent reporting rfl deeds).1 bound).1⟩

end Host

end Danmaku
