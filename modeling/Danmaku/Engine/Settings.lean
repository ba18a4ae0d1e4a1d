import Danmaku.Expression.Evaluator
import Danmaku.Geometry.Plane

/-!
# Settings

What the host may choose, with its defaults, and the reading of settings from named values. A
value of the wrong type makes the settings unreadable; a name that is not known is passed over.
-/

namespace Danmaku

structure Settings where
  /-- The difficulty. -/
  rank : Binary32 := 0
  /-- The speed of what is fired without one from a source that stands still. -/
  defaultSpeed : Binary32 := 1
  waitMultiplier : Binary32 := 1
  /-- Is added to every direction. -/
  angleOffset : Binary32 := 0
  speedMultiplier : Binary32 := 1
  plane : Plane := .xy
  seed : UInt32 := 1
  /-- How deep actions may nest, when they are not the last command of the one around them; a
  64-bit word. -/
  maxDepth : Nat := 64
  /-- How often an action is repeated at most; a 64-bit word. -/
  maxRepeat : Nat := 65536
  policy : UnboundPolicy := .zero
deriving DecidableEq, Inhabited

/-- A value that a setting may be given: a whole number, another number, a word, or anything
else. -/
inductive SettingValue where
  | integer (n : Int)
  | fraction (x : Binary32)
  | word (s : String)
  | other

namespace SettingValue

def number? : SettingValue → Option Binary32
  | integer n => some (.ofInt n)
  | fraction x => some x
  | _ => none

/-- A natural below a bound. -/
def natural? (bound : Nat) : SettingValue → Option Nat
  | integer n => if 0 ≤ n && n < bound then some n.toNat else none
  | _ => none

def word? : SettingValue → Option String
  | word s => some s
  | _ => none

end SettingValue

namespace Settings

/-- The settings with one of them read from a value. -/
def set? (s : Settings) (name : String) (v : SettingValue) : Option Settings :=
  match name with
  | "rank" => v.number?.map fun rank => { s with rank }
  | "default_speed" => v.number?.map fun defaultSpeed => { s with defaultSpeed }
  | "wait_time_multiplier" => v.number?.map fun waitMultiplier => { s with waitMultiplier }
  | "angle_offset" => v.number?.map fun angleOffset => { s with angleOffset }
  | "speed_multiplier" => v.number?.map fun speedMultiplier => { s with speedMultiplier }
  | "coordinate_system" => (v.word?.bind Plane.ofName?).map fun plane => { s with plane }
  | "seed" => (v.natural? (2 ^ 32)).map fun n => { s with seed := UInt32.ofNat n }
  | "max_reference_depth" => (v.natural? (2 ^ 64)).map fun maxDepth => { s with maxDepth }
  | "max_repeat_count" => (v.natural? (2 ^ 64)).map fun maxRepeat => { s with maxRepeat }
  | "unbound_parameter" => (v.word?.bind UnboundPolicy.ofName?).map fun policy => { s with policy }
  | _ => some s

/-- The settings with the named values, and the defaults for the others. -/
def ofFields? : Settings → List (String × SettingValue) → Option Settings
  | s, [] => some s
  | s, (name, v) :: rest => (s.set? name v).bind (ofFields? · rest)

end Settings

end Danmaku
