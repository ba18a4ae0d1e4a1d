import Danmaku.Expression.Evaluator
import Danmaku.Pattern.Element

/-!
# Cursors

A cursor walks through the commands of one action, under the parameters that the action was
entered with.
-/

namespace Danmaku

/-- A place in an action: the number of the next command, and the frames to wait before it. The
depth is the number of actions that were entered to reach this one. -/
structure Cursor where
  action : Element
  parameters : Parameters
  next : Nat
  wait : Nat
  finished : Bool
  depth : Nat
deriving Inhabited

namespace Cursor

/-- The greatest depth, as depths are 64-bit words. -/
def deepest : Nat := 2 ^ 64 - 1

/-- The start of an action, entered at a depth. -/
def enter (action : Element) (parameters : Parameters) (depth : Nat) : Cursor :=
  ⟨action, parameters, 0, 0, false, depth⟩

/-- The next command, unless the action is over. -/
def command? (c : Cursor) : Option Element :=
  if c.finished then none else c.action.children[c.next]?

/-- The next command is the last one. -/
def atLast (c : Cursor) : Bool := c.action.children.length ≤ c.next + 1

def advance (c : Cursor) : Cursor := { c with next := c.next + 1 }

end Cursor

end Danmaku
