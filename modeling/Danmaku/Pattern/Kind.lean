/-!
# Kinds of pattern elements

Each kind has one tag. The `type` attribute of some kinds says how their value is meant.
-/

namespace Danmaku

inductive Kind where
  | bulletml
  | bullet
  | action
  | fire
  | changeDirection
  | changeSpeed
  | accel
  | wait
  | vanish
  | repetition
  | direction
  | speed
  | horizontal
  | vertical
  | term
  | times
  | bulletRef
  | actionRef
  | fireRef
  | param
deriving DecidableEq, Inhabited

namespace Kind

def all : List Kind :=
  [bulletml, bullet, action, fire, changeDirection, changeSpeed, accel, wait, vanish, repetition,
    direction, speed, horizontal, vertical, term, times, bulletRef, actionRef, fireRef, param]

theorem mem_all (k : Kind) : k ∈ all := by cases k <;> decide

def tag : Kind → String
  | bulletml => "bulletml"
  | bullet => "bullet"
  | action => "action"
  | fire => "fire"
  | changeDirection => "changeDirection"
  | changeSpeed => "changeSpeed"
  | accel => "accel"
  | wait => "wait"
  | vanish => "vanish"
  | repetition => "repeat"
  | direction => "direction"
  | speed => "speed"
  | horizontal => "horizontal"
  | vertical => "vertical"
  | term => "term"
  | times => "times"
  | bulletRef => "bulletRef"
  | actionRef => "actionRef"
  | fireRef => "fireRef"
  | param => "param"

instance : ToString Kind := ⟨tag⟩

def ofTag? (tag : String) : Option Kind := all.find? (·.tag == tag)

theorem ofTag?_tag (k : Kind) : ofTag? k.tag = some k := by cases k <;> rfl

theorem ofTag?_eq_some_iff {tag : String} {k : Kind} : ofTag? tag = some k ↔ k.tag = tag := by
  constructor
  · intro h
    simpa using List.find?_some h
  · rintro rfl
    exact ofTag?_tag k

/-- The kind of an element whose tag is unknown. -/
def unknown : Kind := bulletml

/-- The `type` attribute says how the value of these relates to the state. -/
def hasValueType : Kind → Bool
  | direction | speed | horizontal | vertical => true
  | _ => false

/-- An action, in place or by reference. -/
def isAction : Kind → Bool
  | action | actionRef => true
  | _ => false

end Kind

/-- How the playing field of a document is turned. -/
inductive Orientation where
  | none
  | vertical
  | horizontal
deriving DecidableEq, Inhabited

namespace Orientation

def name : Orientation → String
  | none => "none"
  | vertical => "vertical"
  | horizontal => "horizontal"

def ofName? : String → Option Orientation
  | "none" => some none
  | "vertical" => some vertical
  | "horizontal" => some horizontal
  | _ => Option.none

theorem ofName?_name (o : Orientation) : ofName? o.name = some o := by cases o <;> rfl

end Orientation

/-- How a speed or an acceleration is meant: as it is, on top of the bullet's own, or on top of
the last one. -/
inductive ValueType where
  | absolute
  | relative
  | sequence
deriving DecidableEq, Inhabited

namespace ValueType

def name : ValueType → String
  | absolute => "absolute"
  | relative => "relative"
  | sequence => "sequence"

def ofName? : String → Option ValueType
  | "absolute" => some absolute
  | "relative" => some relative
  | "sequence" => some sequence
  | _ => none

theorem ofName?_name (t : ValueType) : ofName? t.name = some t := by cases t <;> rfl

end ValueType

/-- How a direction is meant: from the line to the target, as it is, from the bullet's own
heading, or from the last one. -/
inductive DirectionType where
  | aim
  | absolute
  | relative
  | sequence
deriving DecidableEq, Inhabited

namespace DirectionType

def name : DirectionType → String
  | aim => "aim"
  | absolute => "absolute"
  | relative => "relative"
  | sequence => "sequence"

def ofName? : String → Option DirectionType
  | "aim" => some aim
  | "absolute" => some absolute
  | "relative" => some relative
  | "sequence" => some sequence
  | _ => none

theorem ofName?_name (t : DirectionType) : ofName? t.name = some t := by cases t <;> rfl

end DirectionType

end Danmaku
