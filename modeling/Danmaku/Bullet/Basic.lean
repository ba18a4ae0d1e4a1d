import Danmaku.Bullet.Cursor
import Danmaku.Bullet.Ramp
import Danmaku.Geometry.Heading

/-!
# Bullets

A bullet moves in its plane along its heading, with the velocity that its accelerations have left
behind added. A shooter is a bullet that is not seen and does not move.
-/

namespace Danmaku

/-- A bullet, with the cursors of its actions, the running one first. -/
structure Bullet where
  position : Vec3
  heading : Binary32
  speed : Binary32
  acceleration : Vec3
  accumulated : Vec3
  visible : Bool
  active : Bool
  plane : Plane
  stack : List Cursor
  headingRamp : Ramp
  speedRamp : Ramp
  thrust : Thrust

namespace Bullet

def make (position : Vec3) (heading speed : Binary32) (plane : Plane) : Bullet where
  position := position
  heading := Heading.normalize heading
  speed := speed
  acceleration := .zero
  accumulated := .zero
  visible := true
  active := true
  plane := plane
  stack := []
  headingRamp := .idle
  speedRamp := .idle
  thrust := .idle

def shooter (position : Vec3) (plane : Plane) : Bullet :=
  { make position 0 0 plane with visible := false }

def setHeading (b : Bullet) (heading : Binary32) : Bullet :=
  { b with heading := Heading.normalize heading }

/-- Puts an action on top of the others. -/
def push (b : Bullet) (cursor : Cursor) : Bullet := { b with stack := cursor :: b.stack }

def hasActions (b : Bullet) : Bool := !b.stack.isEmpty

/-- A bullet that has vanished takes no further part and has no actions. -/
def vanish (b : Bullet) : Bullet := { b with active := false, stack := [] }

def clearThrust (b : Bullet) : Bullet := { b with thrust := .idle, acceleration := .zero }

def velocity (b : Bullet) (multiplier : Binary32) : Vec3 :=
  ((Heading.toVector b.plane b.heading).scale b.speed).scale multiplier + b.accumulated

def advanceDirection (b : Bullet) : Bullet :=
  let (headingRamp, heading) := b.headingRamp.advance
  match heading with
  | some heading => { b with headingRamp }.setHeading heading
  | none => { b with headingRamp }

def advanceSpeed (b : Bullet) : Bullet :=
  let (speedRamp, speed) := b.speedRamp.advance
  { b with speedRamp, speed := speed.getD b.speed }

def advanceThrust (b : Bullet) : Bullet :=
  let (thrust, components) := b.thrust.advance
  match components with
  | some (horizontal, vertical) =>
    { b with thrust, acceleration := b.plane.embed horizontal vertical }
  | none => { b with thrust }

/-- Gathers the acceleration and moves, for a frame that lasts `dt`. -/
def move (b : Bullet) (dt multiplier : Binary32) : Bullet :=
  let b := { b with accumulated := b.accumulated + b.acceleration.scale dt }
  { b with position := b.position + (b.velocity multiplier).scale dt }

/-- One frame: every change advances, and what is seen moves. -/
def tick (b : Bullet) (dt multiplier : Binary32) : Bullet :=
  if b.active then
    let b := b.advanceDirection.advanceSpeed.advanceThrust
    if b.visible then b.move dt multiplier else b
  else b

end Bullet

end Danmaku
