import Danmaku.Engine.Basic

/-!
# Stages

A stage plays a document to its end: it holds the bullets that are alive, takes each of them one
step and one frame further at every update, and keeps the faults until they are taken.
-/

namespace Danmaku

structure Stage where
  engine : Engine
  bullets : List Bullet
  faults : List Fault

namespace Stage

def make (document : Document) (settings : Settings) : Stage := ⟨.make document settings, [], []⟩

/-- Adds a shooter for each action that the pattern starts with. -/
def spawn (s : Stage) (position : Vec3) : Stage × Nat :=
  let shooters := s.engine.setup.document.tops.map fun d => s.engine.shooter d.element position
  ({ s with bullets := s.bullets ++ shooters }, shooters.length)

def spawnLog (count : Nat) (position : Vec3) : LogLine :=
  ⟨.debug, "spawned " ++ toString count ++ " shooter(s) at " ++ position.text⟩

/-- A step and a frame of one bullet, unless it has vanished. -/
def play (dt : Binary32) (e : Engine) (b : Bullet) : Engine × Bullet × List Event :=
  if b.active then
    let (e, (b, _), events) := e.step b
    (e, e.integrate b dt, events)
  else (e, b, [])

/-- A step and a frame of each bullet, one after the other. -/
def playAll (dt : Binary32) : Engine → List Bullet → Engine × List Bullet × List Event
  | e, [] => (e, [], [])
  | e, b :: rest =>
    let (e, b, events) := play dt e b
    let (e, bullets, later) := playAll dt e rest
    (e, b :: bullets, events ++ later)

/-- A step and a frame of every bullet. The bullets that have vanished leave, those that were
fired join after the others, and the result tells whether any of them has something to do. -/
def update (s : Stage) (dt : Binary32) : Stage × Bool × List Event :=
  let (engine, bullets, events) := playAll dt s.engine s.bullets
  let bullets := bullets.filter (·.active) ++ events.filterMap Event.bullet?
  let faults := s.faults ++ events.filterMap Event.fault?
  ({ engine, bullets, faults }, bullets.any (·.hasActions), events)

/-- Hands the faults over. -/
def takeFaults (s : Stage) : Stage × List Fault := ({ s with faults := [] }, s.faults)

end Stage

end Danmaku
