import Danmaku.Engine.Exec

/-!
# Values of elements

The text of an element is a number, a duration, a direction, a speed or a component of an
acceleration. What has no value, and what is not finite, is reported and counts as 0.
-/

namespace Danmaku.Exec

/-- The value of an element's text. -/
def value (e : Element) (parameters : Parameters) : Exec Binary32 := do
  match ← evaluate e.body parameters with
  | .ok x =>
    if x.isFinite then return x
    else
      report (.nonFinite e.kind x)
      return 0
  | .error cause =>
    report (.expression e.kind cause)
    return 0

/-- The largest number of frames. -/
def maxFrames : Nat := 2 ^ 32 - 1

/-- A duration in whole frames, one at least. -/
def frames (term : Element) (parameters : Parameters) : Exec Nat := do
  let x ← value term parameters
  return (x.round.maximum 1).toNatClipped maxFrames

/-- The values of elements, one after the other. -/
def values (parameters : Parameters) : List Element → Exec (List Binary32)
  | [] => return []
  | e :: rest => do
    let x ← value e parameters
    let xs ← values parameters rest
    return x :: xs

/-- The definition that a reference names; a reference to none is reported. -/
def resolve (reference : Element) : Exec (Option Element) := do
  match (← setup).document.resolve? reference with
  | some d => return some d.element
  | none =>
    report (.unresolved reference.kind ((reference.attribute? "label").getD ""))
    return none

/-- The parameters that a reference passes on: its `param` children, evaluated under those around
it. -/
def arguments (reference : Element) (parameters : Parameters) : Exec Parameters := do
  return .ofValues (← values parameters (reference.childrenOf .param))

/-- The heading on which a bullet aims when it is at its target. -/
def defaultAim : Binary32 := 180

/-- The heading from a bullet to the target. -/
def aim (source : Bullet) : Exec Binary32 := do
  return (Heading.bearing? source.plane source.position (← setup).target).getD defaultAim

/-- The heading that a direction means for a bullet. -/
def direction (e : Element) (source : Bullet) (parameters : Parameters) : Exec Binary32 := do
  let x ← value e parameters
  let offset := (← setup).settings.angleOffset
  match e.directionType with
  | .aim => return Heading.normalize ((← aim source) + x + offset)
  | .absolute => return Heading.normalize (x + offset)
  | .relative => return Heading.normalize (source.heading + x + offset)
  | .sequence =>
    let last ← sequences
    let next := Heading.normalize (last.direction + x)
    setSequences { last with direction := next }
    return Heading.normalize (next + offset)

/-- The speed that a bullet is fired with. -/
def firedSpeed (e : Element) (source : Bullet) (parameters : Parameters) : Exec Binary32 := do
  let x ← value e parameters
  match e.valueType with
  | .absolute => return x
  | .relative => return source.speed + x
  | .sequence => return (← sequences).speed + x

/-- The speed that a bullet changes to. -/
def changedSpeed (e : Element) (source : Bullet) (parameters : Parameters) : Exec Binary32 := do
  let x ← value e parameters
  match e.valueType with
  | .absolute => return x
  | .relative => return source.speed + x
  | .sequence =>
    let last ← sequences
    let next := last.changeSpeed.getD source.speed + x
    setSequences { last with changeSpeed := some next }
    return next

/-- The component on an axis that an `accel` changes to; without an element for it, it stays. -/
def component (axis : Axis) (command : Element) (current : Binary32) (parameters : Parameters) :
    Exec Binary32 := do
  match command.child? axis.child with
  | none => return current
  | some e =>
    let x ← value e parameters
    match e.valueType with
    | .absolute => return x
    | .relative => return current + x
    | .sequence =>
      let last ← sequences
      let next := last.component axis + x
      setSequences (last.setComponent axis next)
      return next

end Danmaku.Exec
