import Danmaku.Proofs.Expression.Evaluator
import Danmaku.Proofs.Expression.Folding

/-!
# Evaluators without a memory

`Terms` are what is in force when a text is evaluated: an evaluator that remembers no text, and that
evaluates each expression as it was read. Whatever has been asked of an evaluator before, it answers
as the terms do (`answers_terms`).
-/

namespace Danmaku

/-- The values of the variables, and what a parameter without a value stands for. -/
structure Terms where
  random : Binary32
  rank : Binary32
  parameters : Parameters
  policy : UnboundPolicy

namespace Terms

def start : Terms := ⟨0, 0, .empty, .zero⟩

/-- A parameter without a value that counts as 0. -/
def missing (t : Terms) (index : Nat) : Bool :=
  match t.policy with
  | .zero => (t.parameters.get? index).isNone
  | .report => false

def scope (t : Terms) : Scope where
  parameter? index := if t.missing index then some 0 else t.parameters.get? index
  random := t.random
  rank := t.rank

/-- The value of a text as it stands: 0 if all of it is blank; else the place where the trimmed text
cannot go on; else the value of the expression that the trimmed text is read as, or the first of its
parameters that has none. -/
def evaluate (t : Terms) (text : String) : Evaluation :=
  let trimmed := (Text.trim text).toList
  if text.toList.all Text.isBlank then ⟨.ok 0, []⟩
  else
    match Expression.readAll trimmed with
    | .error unread => ⟨.error (.malformed (.ofRest trimmed unread)), []⟩
    | .ok e => ⟨(e.eval t.scope).mapError .unbound, e.parameters.filter t.missing⟩

end Terms

/-- What may be asked of an evaluator. -/
inductive Request where
  | setRandom (x : Binary32)
  | setRank (x : Binary32)
  | setParameters (p : Parameters)
  | setPolicy (policy : UnboundPolicy)
  | evaluate (text : String)

/-- The answers to requests, one after the other. -/
def answersOf {σ : Type} (serve : σ → Request → Option Evaluation × σ) :
    σ → List Request → List (Option Evaluation)
  | _, [] => []
  | s, request :: rest => (serve s request).1 :: answersOf serve (serve s request).2 rest

namespace Terms

def serve (t : Terms) : Request → Option Evaluation × Terms
  | .setRandom random => (none, { t with random })
  | .setRank rank => (none, { t with rank })
  | .setParameters parameters => (none, { t with parameters })
  | .setPolicy policy => (none, { t with policy })
  | .evaluate text => (some (t.evaluate text), t)

end Terms

namespace Evaluator

def serve (v : Evaluator) : Request → Option Evaluation × Evaluator
  | .setRandom random => (none, { v with random })
  | .setRank rank => (none, { v with rank })
  | .setParameters parameters => (none, { v with parameters })
  | .setPolicy policy => (none, { v with policy })
  | .evaluate text => (some (v.evaluate text).1, (v.evaluate text).2)

def terms (v : Evaluator) : Terms := ⟨v.random, v.rank, v.parameters, v.policy⟩

end Evaluator

theorem Text.trim_isEmpty (s : String) : (trim s).isEmpty = s.toList.all isBlank := by
  have empty : (trim s).isEmpty = true ↔ trimList s.toList = [] := by
    rw [String.isEmpty_iff, trim, String.ofList_eq_empty_iff]
  have blank : trimList s.toList = [] ↔ s.toList.all isBlank = true := by
    simp only [trimList, List.reverse_eq_nil_iff, List.dropWhile_eq_nil_iff, List.all_eq_true,
      List.mem_reverse]
    constructor
    · intro h c mem
      rw [← List.takeWhile_append_dropWhile (p := isBlank) (l := s.toList)] at mem
      rcases List.mem_append.1 mem with front | back
      · exact List.mem_takeWhile_imp front
      · exact h c back
    · intro h c mem
      exact h c ((List.dropWhile_suffix isBlank).mem mem)
  exact Bool.eq_iff_iff.2 (empty.trans blank)

namespace Evaluator

theorem scope_terms (v : Evaluator) : v.terms.scope = v.scope := by
  obtain ⟨random, rank, parameters, policy, cache⟩ := v
  have parameter : (terms ⟨random, rank, parameters, policy, cache⟩).scope.parameter? =
      parameter? ⟨random, rank, parameters, policy, cache⟩ := by
    funext index
    simp only [terms, Terms.scope, parameter?]
    cases value : parameters.get? index <;> cases policy <;> simp [Terms.missing, value]
  simp only [scope, ← parameter]
  rfl

theorem defaulted_terms (v : Evaluator) (indices : List Nat) :
    v.defaulted indices = indices.filter v.terms.missing := by
  obtain ⟨random, rank, parameters, policy, cache⟩ := v
  cases policy with
  | zero => rfl
  | report => simp [defaulted, terms, Terms.missing]

theorem evaluateExpression_terms (v : Evaluator) (e : Expression) :
    v.evaluateExpression e.fold =
      ⟨(e.eval v.terms.scope).mapError .unbound, e.parameters.filter v.terms.missing⟩ := by
  rw [scope_terms, ← defaulted_terms, evaluateExpression, Expression.eval_fold,
    Expression.parameters_fold]
  cases e.eval v.scope <;> rfl

theorem evaluateAnew_terms (v : Evaluator) (text : String) :
    v.evaluateAnew text = v.terms.evaluate text := by
  simp only [evaluateAnew, Terms.evaluate, Text.trim_isEmpty, Expression.parse]
  split
  · rfl
  · cases read : Expression.readAll (Text.trim text).toList with
    | error unread => rfl
    | ok e => exact v.evaluateExpression_terms e

theorem serve_terms {v : Evaluator} (h : v.Faithful) (request : Request) :
    (v.serve request).1 = (v.terms.serve request).1 ∧
      (v.serve request).2.terms = (v.terms.serve request).2 ∧ (v.serve request).2.Faithful := by
  cases request with
  | evaluate text =>
    simp only [serve, Terms.serve]
    have answer : (v.evaluate text).1 = v.terms.evaluate text := by
      rw [evaluate_anew h, evaluateAnew_terms]
    obtain ⟨cache, keeps⟩ := v.evaluate_keeps text
    refine ⟨congrArg some answer, ?_, evaluate_faithful h text⟩
    rw [keeps]
    rfl
  | _ => exact ⟨rfl, rfl, h⟩

theorem answers_faithful {v : Evaluator} (h : v.Faithful) (requests : List Request) :
    answersOf serve v requests = answersOf Terms.serve v.terms requests := by
  induction requests generalizing v with
  | nil => rfl
  | cons request rest ih =>
    obtain ⟨answer, terms, faithful⟩ := serve_terms h request
    rw [answersOf, answersOf, answer, ih faithful, terms]

end Evaluator

/-- **What is remembered is never seen.** Whatever an evaluator has been asked and told before, and
whether or not it came to a value, it answers as the terms that are in force at the time. -/
theorem answers_terms (requests : List Request) :
    answersOf Evaluator.serve .empty requests = answersOf Terms.serve .start requests := by
  apply Evaluator.answers_faithful
  intro entry mem
  exact absurd mem List.not_mem_nil

/-- The third answer is that of the expression remembered at the second, under other terms. -/
example :
    (answersOf Evaluator.serve .empty
      [.evaluate "$1 +", .evaluate " 2 + $1", .setParameters (.ofValues [3]), .evaluate "2 + $1\n",
        .setParameters .empty, .setPolicy .report, .evaluate "2 + $1"]).map (·.map (·.value)) =
      [some (.error (.malformed ⟨4, 1, 5⟩)), some (.ok 2), none, some (.ok 5), none, none,
        some (.error (.unbound 1))] := by
  decide +kernel

end Danmaku
