import Danmaku.Geometry.Vec3

/-!
# The plane of movement

A pattern is played in a plane with a horizontal and a vertical axis; vertical is always `y`.
-/

namespace Danmaku

inductive Plane where
  | xy
  | yz
deriving DecidableEq, Inhabited

namespace Plane

/-- The vector with the given components in the plane and none across it. -/
def embed : Plane → Binary32 → Binary32 → Vec3
  | xy, horizontal, vertical => ⟨horizontal, vertical, 0⟩
  | yz, horizontal, vertical => ⟨0, vertical, horizontal⟩

/-- The horizontal and the vertical component of a vector. -/
def components : Plane → Vec3 → Binary32 × Binary32
  | xy, v => (v.x, v.y)
  | yz, v => (v.z, v.y)

theorem components_embed (p : Plane) (h v : Binary32) : p.components (p.embed h v) = (h, v) := by
  cases p <;> rfl

def name : Plane → String
  | xy => "xy"
  | yz => "yz"

def ofName? : String → Option Plane
  | "xy" => some xy
  | "yz" => some yz
  | _ => none

theorem ofName?_name (p : Plane) : ofName? p.name = some p := by cases p <;> rfl

end Plane

end Danmaku
