import Danmaku.Expression.Grammar
import Danmaku.Text.Blank

/-!
# Evaluating texts

An evaluator holds the values of the variables and the expressions of the texts that it has read.
It trims a text before anything else; a blank text has the value 0.
-/

namespace Danmaku

/-- Values bound to parameter indices; of two bindings of an index the first counts. -/
structure Parameters where
  bindings : List (Nat × Binary32)
deriving DecidableEq, Inhabited

namespace Parameters

def empty : Parameters := ⟨[]⟩

/-- The values as parameters 1, 2 and so on. -/
def ofValues (values : List Binary32) : Parameters :=
  ⟨(List.range' 1 values.length).zip values⟩

def get? (p : Parameters) (index : Nat) : Option Binary32 := p.bindings.lookup index

end Parameters

/-- What a parameter without a value stands for. -/
inductive UnboundPolicy where
  | zero
  | report
deriving DecidableEq, Inhabited

namespace UnboundPolicy

def name : UnboundPolicy → String
  | zero => "zero"
  | report => "report"

def ofName? : String → Option UnboundPolicy
  | "zero" => some zero
  | "report" => some report
  | _ => none

theorem ofName?_name (p : UnboundPolicy) : ofName? p.name = some p := by cases p <;> rfl

end UnboundPolicy

/-- Why a text has no value. -/
inductive ExpressionError where
  | malformed (place : Text.Position)
  | unbound (index : Nat)
deriving DecidableEq

def ExpressionError.message : ExpressionError → String
  | malformed _ => "failed to parse expression"
  | unbound index => "unbound parameter `$" ++ toString index ++ "`"

/-- The value of a text, and the parameters that were taken as 0 for want of a value. -/
structure Evaluation where
  value : Except ExpressionError Binary32
  defaulted : List Nat

structure Evaluator where
  random : Binary32
  rank : Binary32
  parameters : Parameters
  policy : UnboundPolicy
  cache : List (String × Expression)
deriving Inhabited

namespace Evaluator

def empty : Evaluator := ⟨0, 0, .empty, .zero, []⟩

/-- The value of a parameter; one without a binding is 0 or has none, as the policy says. -/
def parameter? (v : Evaluator) (index : Nat) : Option Binary32 :=
  match v.parameters.get? index, v.policy with
  | some value, _ => some value
  | none, .zero => some 0
  | none, .report => none

def scope (v : Evaluator) : Scope := ⟨v.parameter?, v.random, v.rank⟩

/-- Those of the indices that the policy makes 0 for want of a binding. -/
def defaulted (v : Evaluator) (indices : List Nat) : List Nat :=
  match v.policy with
  | .zero => indices.filter fun index => (v.parameters.get? index).isNone
  | .report => []

def evaluateExpression (v : Evaluator) (e : Expression) : Evaluation where
  value :=
    match e.eval v.scope with
    | .ok value => .ok value
    | .error index => .error (.unbound index)
  defaulted := v.defaulted e.parameters

/-- The value of a text, and the evaluator that remembers its expression. -/
def evaluate (v : Evaluator) (text : String) : Evaluation × Evaluator :=
  let text := Text.trim text
  if text.isEmpty then (⟨.ok 0, []⟩, v)
  else
    match v.cache.lookup text with
    | some e => (v.evaluateExpression e, v)
    | none =>
      match Expression.parse text with
      | .error place => (⟨.error (.malformed place), []⟩, v)
      | .ok e => (v.evaluateExpression e, { v with cache := (text, e) :: v.cache })

end Evaluator

end Danmaku
