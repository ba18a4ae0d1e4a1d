import Danmaku.Binary32.Decimal

/-!
# Points and vectors in space
-/

namespace Danmaku

/-- A point, a displacement or a velocity. -/
structure Vec3 where
  x : Binary32
  y : Binary32
  z : Binary32
deriving DecidableEq, Inhabited

namespace Vec3

def zero : Vec3 := ⟨0, 0, 0⟩

def add (u v : Vec3) : Vec3 := ⟨u.x + v.x, u.y + v.y, u.z + v.z⟩

def sub (u v : Vec3) : Vec3 := ⟨u.x - v.x, u.y - v.y, u.z - v.z⟩

def scale (v : Vec3) (k : Binary32) : Vec3 := ⟨v.x * k, v.y * k, v.z * k⟩

instance : Add Vec3 := ⟨add⟩
instance : Sub Vec3 := ⟨sub⟩

/-- The three components after the name of the type, each with a point. -/
def text (v : Vec3) : String :=
  "Vec3(" ++ v.x.text .pointed ++ ", " ++ v.y.text .pointed ++ ", " ++ v.z.text .pointed ++ ")"

end Vec3

end Danmaku
