import Danmaku.Engine.Command

/-!
# Engines

An engine plays a document: it makes shooters, and takes bullets one command or one frame
further. A step counts down a wait, or leaves an action that is over, or executes one command.
-/

namespace Danmaku

/-- The frame of the command at a cursor. -/
def Cursor.frame (c : Cursor) : Frame := ⟨c.parameters, c.depth, c.atLast⟩

namespace Effect

/-- The bullet after an effect, whose running action is at `top` and whose other actions are
`rest`, and whether there is more to do. -/
def apply (b : Bullet) (top : Cursor) (rest : List Cursor) : Effect → Bullet × Bool
  | nothing => ({ b with stack := top.advance :: rest }, true)
  | wait frames => ({ b with stack := { top.advance with wait := frames } :: rest }, true)
  | finish => ({ b with stack := rest }, !rest.isEmpty)
  | vanish => (b.vanish, false)
  | turn ramp => ({ b with stack := top.advance :: rest, headingRamp := ramp }, true)
  | changeSpeed ramp => ({ b with stack := top.advance :: rest, speedRamp := ramp }, true)
  | accelerate thrust => ({ b with stack := top.advance :: rest, thrust }, true)
  | enter count cursor =>
    ({ b with stack := List.replicate count cursor ++ top.advance :: rest }, true)
  | replace cursor => ({ b with stack := cursor :: rest }, true)

/-- The event of an effect. -/
def event? : Effect → Option Event
  | enter count _ => some (.entering count)
  | replace _ => some .replacing
  | _ => none

end Effect

namespace Exec

/-- Executes a command and does its effect; `frame` gives the frame of the running action. -/
def perform (frame : Cursor → Frame) (e : Element) (b : Bullet) (top : Cursor)
    (rest : List Cursor) : Exec (Bullet × Bool) := do
  let effect ← command e b (frame top)
  match effect.event? with
  | some event => emit event
  | none => pure ()
  return effect.apply b top rest

/-- One step of a bullet: the bullet after it, and whether there is more to do. -/
def step (frame : Cursor → Frame) (b : Bullet) : Exec (Bullet × Bool) :=
  match b.stack with
  | [] => return (b, false)
  | top :: rest =>
    if 0 < top.wait then
      return ({ b with stack := { top with wait := top.wait - 1 } :: rest }, true)
    else
      match top.command? with
      | none => return ({ b with stack := rest }, !rest.isEmpty)
      | some e => perform frame e b top rest

end Exec

/-- Something that plays a document. -/
structure Engine where
  setup : Setup
  memory : Memory

namespace Engine

def make (document : Document) (settings : Settings) : Engine where
  setup := ⟨document, settings, .zero⟩
  memory :=
    { evaluator := { Evaluator.empty with rank := settings.rank, policy := settings.policy }
      random := .ofSeed settings.seed.toUInt64
      sequences := .start }

def settings (e : Engine) : Settings := e.setup.settings

def setTarget (e : Engine) (target : Vec3) : Engine := { e with setup.target := target }

def setSettings (e : Engine) (settings : Settings) : Engine :=
  { e with setup.settings := settings }

def setPlane (e : Engine) (plane : Plane) : Engine := e.setSettings { e.settings with plane }

def setRank (e : Engine) (rank : Binary32) : Engine :=
  { e with setup.settings.rank := rank, memory.evaluator.rank := rank }

def setDefaultSpeed (e : Engine) (defaultSpeed : Binary32) : Engine :=
  e.setSettings { e.settings with defaultSpeed }

def setWaitMultiplier (e : Engine) (waitMultiplier : Binary32) : Engine :=
  e.setSettings { e.settings with waitMultiplier }

def setAngleOffset (e : Engine) (angleOffset : Binary32) : Engine :=
  e.setSettings { e.settings with angleOffset }

def setSpeedMultiplier (e : Engine) (speedMultiplier : Binary32) : Engine :=
  e.setSettings { e.settings with speedMultiplier }

/-- A shooter that starts with an action. -/
def shooter (e : Engine) (action : Element) (position : Vec3) : Bullet :=
  (Bullet.shooter position e.settings.plane).push (.enter action .empty 0)

/-- What comes of an execution: the engine after it, the result and the events. -/
def run {α : Type} (e : Engine) (x : Exec α) : Engine × α × List Event :=
  let o := x e.setup e.memory
  ({ e with memory := o.memory }, o.value, o.events)

/-- One step of a bullet. -/
def step (e : Engine) (b : Bullet) : Engine × (Bullet × Bool) × List Event :=
  e.run (Exec.step Cursor.frame b)

/-- One frame of a bullet. -/
def integrate (e : Engine) (b : Bullet) (dt : Binary32) : Bullet :=
  b.tick dt e.settings.speedMultiplier

end Engine

end Danmaku
