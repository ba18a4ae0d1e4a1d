import Danmaku.Binary32.Arithmetic

/-!
# Arithmetic expressions

The bodies of pattern elements are arithmetic over numbers, the difficulty, a random number and
numbered parameters. Evaluation goes from left to right and stops at the first parameter without
a value; division by zero follows the rules of `Binary32`.
-/

namespace Danmaku

inductive Variable where
  | rank
  | random
  | parameter (index : Nat)
deriving DecidableEq

inductive Operator where
  | add
  | sub
  | mul
  | div
  | mod
deriving DecidableEq

def Operator.apply : Operator → Binary32 → Binary32 → Binary32
  | add, x, y => x + y
  | sub, x, y => x - y
  | mul, x, y => x * y
  | div, x, y => x / y
  | mod, x, y => x % y

inductive Expression where
  | number (value : Binary32)
  | var (name : Variable)
  | negate (operand : Expression)
  | binary (operator : Operator) (left right : Expression)
deriving DecidableEq

/-- The values of the variables. -/
structure Scope where
  parameter? : Nat → Option Binary32
  random : Binary32
  rank : Binary32

/-- The value of a variable, or the index of the parameter that has none. -/
def Scope.value (scope : Scope) : Variable → Except Nat Binary32
  | .rank => .ok scope.rank
  | .random => .ok scope.random
  | .parameter index =>
    match scope.parameter? index with
    | some value => .ok value
    | none => .error index

namespace Expression

/-- The value in a scope, or the index of the first parameter without a value. -/
def eval (scope : Scope) : Expression → Except Nat Binary32
  | number value => .ok value
  | var name => scope.value name
  | negate operand => do
    let value ← eval scope operand
    return -value
  | binary operator left right => do
    let x ← eval scope left
    let y ← eval scope right
    return operator.apply x y

/-- A negation, computed at once on a number. -/
def foldNegate : Expression → Expression
  | number value => number (-value)
  | operand => negate operand

/-- A binary operation, computed at once on two numbers. -/
def foldBinary (operator : Operator) : Expression → Expression → Expression
  | number x, number y => number (operator.apply x y)
  | left, right => binary operator left right

/-- Every part without variables is replaced by its value. -/
def fold : Expression → Expression
  | negate operand => foldNegate operand.fold
  | binary operator left right => foldBinary operator left.fold right.fold
  | e => e

/-- The parameters that occur, from left to right. -/
def parameters : Expression → List Nat
  | number _ => []
  | var (.parameter index) => [index]
  | var _ => []
  | negate operand => operand.parameters
  | binary _ left right => left.parameters ++ right.parameters

end Expression

end Danmaku
