import Danmaku.Engine.Value

/-!
# Commands

A command reads its bullet and has one effect on it; what it fires are events.
-/

namespace Danmaku

/-- What a command knows of the action it stands in: the parameters, the depth, and whether it is
the last command. -/
structure Frame where
  parameters : Parameters
  depth : Nat
  last : Bool

/-- What a command does to its bullet. -/
inductive Effect where
  | nothing
  | wait (frames : Nat)
  /-- The action ends here. -/
  | finish
  | vanish
  | turn (ramp : Ramp)
  | changeSpeed (ramp : Ramp)
  | accelerate (thrust : Thrust)
  /-- An action is played first, a number of times. -/
  | enter (count : Nat) (cursor : Cursor)
  /-- An action is played in place of the running one. -/
  | replace (cursor : Cursor)

namespace Exec

/-- An action and the parameters that it is played under; by reference, those passed on. -/
def actionOf (e : Element) (parameters : Parameters) : Exec (Option (Element × Parameters)) := do
  if e.kind = .actionRef then
    match ← resolve e with
    | some action => return some (action, ← arguments e parameters)
    | none => return none
  else return some (e, parameters)

/-- The cursor of an action that is entered at a depth, unless that is too deep. -/
def entered (action : Element) (parameters : Parameters) (depth : Nat) :
    Exec (Option Cursor) := do
  if (← setup).settings.maxDepth < depth then
    report (.tooDeep (action.label?.getD "") depth)
    return none
  else return some (.enter action parameters depth)

/-- The cursor of an action or of a reference to one. -/
def cursorOf (e : Element) (parameters : Parameters) (depth : Nat) : Exec (Option Cursor) := do
  match ← actionOf e parameters with
  | some (action, parameters) => entered action parameters depth
  | none => return none

def wait (command : Element) (frame : Frame) : Exec Effect := do
  let x ← value command frame.parameters
  let multiplier := (← setup).settings.waitMultiplier
  return .wait (((x * multiplier).round.maximum 0).toNatClipped maxFrames)

/-- Of an action that is the last command the running one makes room for it, at its depth. -/
def action (command : Element) (frame : Frame) : Exec Effect := do
  let depth := if frame.last then frame.depth else frame.depth + 1
  match ← cursorOf command frame.parameters depth with
  | some cursor => return if frame.last then .replace cursor else .enter 1 cursor
  | none => return .nothing

/-- The largest count of repetitions. -/
def maxCount : Nat := 2 ^ 64 - 1

/-- How often an action is repeated that is to be repeated a positive number of times. -/
def repetitions (times : Binary32) : Exec Nat := do
  let limit := (← setup).settings.maxRepeat
  if (Binary32.ofNat limit).lt times then
    report (.repeatLimit times limit)
    return limit
  else return times.toNatClipped maxCount

/-- No repetitions at all end the action that the command stands in. -/
def repetition (command : Element) (frame : Frame) : Exec Effect := do
  match command.child? .times with
  | none =>
    report (.missingChild .repetition .times)
    return .nothing
  | some e =>
    let times := (← value e frame.parameters).round
    if times.le 0 then return .finish
    let count ← repetitions times
    match command.children.find? (·.kind.isAction) with
    | none =>
      report (.missingChild .repetition .action)
      return .nothing
    | some body =>
      match ← cursorOf body frame.parameters (frame.depth + 1) with
      | some cursor =>
        emit (.repeating count)
        return .enter count cursor
      | none => return .nothing

/-- What a fire makes its bullet from: a template in place or by reference, and the parameters
that it is read under. -/
def template (fire : Element) (parameters : Parameters) :
    Exec (Option (Element × Parameters)) := do
  match fire.child? .bullet with
  | some bullet => return some (bullet, parameters)
  | none =>
    match fire.child? .bulletRef with
    | some reference =>
      match ← resolve reference with
      | some bullet => return some (bullet, ← arguments reference parameters)
      | none => return none
    | none =>
      report (.missingChild .fire .bullet)
      return none

/-- The cursors of a template's actions, in their order; they are entered at no depth. -/
def templateCursors (parameters : Parameters) : List Element → Exec (List Cursor)
  | [] => return []
  | e :: rest => do
    if e.kind.isAction then
      match ← actionOf e parameters with
      | some (action, arguments) =>
        let cursors ← templateCursors parameters rest
        return .enter action arguments 0 :: cursors
      | none => templateCursors parameters rest
    else templateCursors parameters rest

/-- The value that a child of an element gives, if there is such a child. -/
def ofChild (e : Element) (kind : Kind) (read : Element → Exec Binary32) :
    Exec (Option Binary32) := do
  match e.child? kind with
  | some child => return some (← read child)
  | none => return none

/-- A value that is given, or another. -/
def orElse (x? : Option Binary32) (other : Exec Binary32) : Exec Binary32 :=
  match x? with
  | some x => return x
  | none => other

/-- The heading of a bullet for which the fire gives none. -/
def ownHeading (source : Bullet) : Exec Binary32 := do
  return Heading.normalize ((← aim source) + (← setup).settings.angleOffset)

/-- The speed of a bullet for which the fire gives none: that of its source, if it moves. -/
def ownSpeed (source : Bullet) : Exec Binary32 := do
  if (0 : Binary32).lt source.speed then return source.speed
  else return (← setup).settings.defaultSpeed

/-- The bullet that a fire makes where its source is. The template's direction and speed count
before those of the fire. -/
def madeBullet (command : Element) (source : Bullet) (parameters : Parameters) : Exec Bullet := do
  let heading? ← ofChild command .direction (direction · source parameters)
  let speed? ← ofChild command .speed (firedSpeed · source parameters)
  let template? ← template command parameters
  let heading ← orElse heading? (ownHeading source)
  let speed ← orElse speed? (ownSpeed source)
  match template? with
  | some (e, arguments) =>
    let stack ← templateCursors arguments e.children
    let heading? ← ofChild e .direction (direction · source arguments)
    let speed? ← ofChild e .speed (firedSpeed · source arguments)
    return { Bullet.make source.position (heading?.getD heading) (speed?.getD speed) source.plane
      with stack }
  | none => return .make source.position heading speed source.plane

/-- Hands a bullet over. Its heading and speed are what the next sequence values build on. -/
def handOver (bullet : Bullet) : Exec Unit := do
  let offset := (← setup).settings.angleOffset
  let last ← sequences
  setSequences
    { last with direction := Heading.normalize (bullet.heading - offset), speed := bullet.speed }
  emit (.fired bullet)

def fire (command : Element) (source : Bullet) (parameters : Parameters) : Exec Unit := do
  handOver (← madeBullet command source parameters)

/-- The two children that a change needs; the first that is missing is reported. -/
def withTerm (command : Element) (kind : Kind) : Exec (Option (Element × Element)) := do
  match command.child? kind, command.child? .term with
  | some e, some term => return some (e, term)
  | none, _ =>
    report (.missingChild command.kind kind)
    return none
  | some _, none =>
    report (.missingChild command.kind .term)
    return none

def changeDirection (command : Element) (bullet : Bullet) (parameters : Parameters) :
    Exec Effect := do
  match ← withTerm command .direction with
  | none => return .nothing
  | some (e, term) =>
    let target ← direction e bullet parameters
    let duration ← frames term parameters
    return .turn (.make bullet.heading target duration)

def changeSpeed (command : Element) (bullet : Bullet) (parameters : Parameters) :
    Exec Effect := do
  match ← withTerm command .speed with
  | none => return .nothing
  | some (e, term) =>
    let target ← changedSpeed e bullet parameters
    let duration ← frames term parameters
    return .changeSpeed (.make bullet.speed target duration)

def accel (command : Element) (bullet : Bullet) (parameters : Parameters) : Exec Effect := do
  match command.child? .term with
  | none =>
    report (.missingChild .accel .term)
    return .nothing
  | some term =>
    let (h, v) := bullet.plane.components bullet.acceleration
    let h ← component .horizontal command h parameters
    let v ← component .vertical command v parameters
    let duration ← frames term parameters
    return .accelerate (.make h v duration)

/-- Executes one command of a bullet. -/
def command (e : Element) (bullet : Bullet) (frame : Frame) : Exec Effect := do
  match e.kind with
  | .wait => wait e frame
  | .vanish => return .vanish
  | .repetition => repetition e frame
  | .fire =>
    fire e bullet frame.parameters
    return .nothing
  | .fireRef =>
    match ← resolve e with
    | some definition =>
      fire definition bullet (← arguments e frame.parameters)
      return .nothing
    | none => return .nothing
  | .changeDirection => changeDirection e bullet frame.parameters
  | .changeSpeed => changeSpeed e bullet frame.parameters
  | .accel => accel e bullet frame.parameters
  | .action => action e frame
  | .actionRef => action e frame
  | kind =>
    report (.unexpected kind)
    return .nothing

end Exec

end Danmaku
