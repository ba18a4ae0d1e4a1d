import Danmaku.Binary32.Decimal
import Danmaku.Expression.Evaluator
import Danmaku.Pattern.Kind

/-!
# Faults

What goes wrong while a pattern is played. The command in question is passed over, or a value is
replaced; play goes on.
-/

namespace Danmaku

inductive Fault where
  /-- A reference names no definition. -/
  | unresolved (kind : Kind) (label : String)
  | missingChild (command child : Kind)
  /-- An element stands among the commands of an action that is none. -/
  | unexpected (kind : Kind)
  | expression (element : Kind) (cause : ExpressionError)
  | nonFinite (element : Kind) (value : Binary32)
  /-- More repetitions than allowed; the limit is taken instead. -/
  | repeatLimit (times : Binary32) (limit : Nat)
  /-- Actions would nest too deep. -/
  | tooDeep (label : String) (depth : Nat)
deriving DecidableEq

def Fault.message : Fault → String
  | unresolved kind label => "could not find " ++ kind.tag ++ " `" ++ label ++ "`"
  | missingChild command child =>
    "`" ++ command.tag ++ "` is missing a `" ++ child.tag ++ "` element"
  | unexpected kind => "`" ++ kind.tag ++ "` is not a command"
  | expression element _ => "failed to evaluate `" ++ element.tag ++ "`"
  | nonFinite element value =>
    "`" ++ element.tag ++ "` evaluated to " ++ value.text .plain ++ "; using 0"
  | repeatLimit times limit =>
    "repeat of " ++ times.text .plain ++ " iterations exceeds the limit of " ++ toString limit
  | tooDeep label depth =>
    "not entering action `" ++ label ++ "`: nesting depth " ++ toString depth
      ++ " exceeds the limit"

end Danmaku
