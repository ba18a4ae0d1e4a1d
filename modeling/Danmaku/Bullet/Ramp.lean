import Danmaku.Binary32.Arithmetic

/-!
# Ramps

A change over time takes a number of frames, one at least. At each frame but the last its value is
the fraction of the frames that have passed, and at the last it is exactly the target. A change
that is over has no more values.
-/

namespace Danmaku

/-- The course of a change: how many of its frames have passed. -/
structure Course where
  duration : Nat
  frame : Nat
  active : Bool
deriving DecidableEq

/-- How far a change has come at one frame. -/
inductive Progress where
  | underway (fraction : Binary32)
  | arrived

namespace Course

/-- A change that is over. -/
def idle : Course := ⟨1, 0, false⟩

def start (duration : Nat) : Course := ⟨max duration 1, 0, true⟩

/-- The next frame, and the progress at it. -/
def advance (c : Course) : Course × Option Progress :=
  if c.active then
    if c.duration ≤ c.frame + 1 then
      ({ c with frame := c.duration, active := false }, some .arrived)
    else
      ({ c with frame := c.frame + 1 },
        some (.underway (.ofNat (c.frame + 1) / .ofNat c.duration)))
  else (c, none)

end Course

/-- A change of a heading or a speed. -/
structure Ramp where
  start : Binary32
  target : Binary32
  course : Course
deriving DecidableEq

namespace Ramp

def idle : Ramp := ⟨0, 0, .idle⟩

def make (start target : Binary32) (duration : Nat) : Ramp := ⟨start, target, .start duration⟩

def valueAt (r : Ramp) : Progress → Binary32
  | .underway fraction => r.start + (r.target - r.start) * fraction
  | .arrived => r.target

/-- The next frame, and the value at it while the change lasts. -/
def advance (r : Ramp) : Ramp × Option Binary32 :=
  let (course, progress) := r.course.advance
  ({ r with course }, progress.map r.valueAt)

end Ramp

/-- A change of an acceleration, from none to the given components in the plane. -/
structure Thrust where
  horizontal : Binary32
  vertical : Binary32
  course : Course
deriving DecidableEq

namespace Thrust

def idle : Thrust := ⟨0, 0, .idle⟩

def make (horizontal vertical : Binary32) (duration : Nat) : Thrust :=
  ⟨horizontal, vertical, .start duration⟩

def valueAt (t : Thrust) : Progress → Binary32 × Binary32
  | .underway fraction => (t.horizontal * fraction, t.vertical * fraction)
  | .arrived => (t.horizontal, t.vertical)

/-- The next frame, and the components at it while the change lasts. -/
def advance (t : Thrust) : Thrust × Option (Binary32 × Binary32) :=
  let (course, progress) := t.course.advance
  ({ t with course }, progress.map t.valueAt)

end Thrust

end Danmaku
