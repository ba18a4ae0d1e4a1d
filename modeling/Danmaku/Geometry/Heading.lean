import Danmaku.Binary32.Bits
import Danmaku.Geometry.Plane

/-!
# Headings

A heading is an angle in degrees, clockwise from the vertical axis. Headings are kept in the
half-open range from -360, excluded, to 360, included.
-/

namespace Danmaku.Heading

/-- Takes whole turns away from a heading outside the range, towards zero. A heading that is a
positive number of whole turns becomes 360, and one that is not finite becomes 0. -/
def normalize (degrees : Binary32) : Binary32 :=
  if !degrees.isFinite then 0
  else if (360 : Binary32).lt degrees then
    let turned := degrees % 360
    if turned.isZero then 360 else turned
  else if degrees.le (-360) then degrees % 360
  else degrees

/-- π / 180 -/
def radiansPerDegree : Binary32 := .ofDecimal 17453292 9

/-- 180 / π -/
def degreesPerRadian : Binary32 := .ofDecimal 5729578 5

/-- The unit vector in the direction of a heading. -/
def toVector (plane : Plane) (degrees : Binary32) : Vec3 :=
  let radians := degrees * radiansPerDegree
  plane.embed radians.sin radians.cos

/-- Two positions whose squared distance in the plane is below this are taken as one. -/
def coincidence : Binary32 := .ofDecimal 1 6

/-- The heading that points from one position to another, unless they coincide in the plane. -/
def bearing? (plane : Plane) (source target : Vec3) : Option Binary32 :=
  let (horizontal, vertical) := plane.components (target - source)
  if (horizontal * horizontal + vertical * vertical).lt coincidence then none
  else some (normalize (Binary32.atan2 horizontal vertical * degreesPerRadian))

end Danmaku.Heading
