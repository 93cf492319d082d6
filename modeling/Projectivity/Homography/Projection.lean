import Projectivity.Matrix.Basic

/-!
# Projection

A transform maps a point to homogeneous coordinates, and division by the last of
them gives the image point.  A last coordinate that is small against the transform
means a point at infinity, so that the test does not depend on the scale of the
transform.
-/

set_option autoImplicit false

namespace Projectivity

variable {α : Type} [Scalar α]

namespace Homogeneous

/-- The point of the plane with the given homogeneous coordinates. -/
def dehomogenize (h : Homogeneous α) : Point α := ⟨h.x / h.w, h.y / h.w⟩

end Homogeneous

namespace Matrix3

/-- The part of the norm of a transform up to which a last coordinate means infinity. -/
def infinityTolerance : α := Scalar.decimal 1 12

/-- The image of a point, or nothing for a point at infinity. -/
def project? (H : Matrix3 α) (tolerance : α) (p : Point α) : Option (Point α) :=
  let h := H.apply p
  if tolerance * H.norm < Scalar.abs h.w then some h.dehomogenize else none

/-- The images of a list of points. -/
def projectAll (H : Matrix3 α) (tolerance : α) (points : List (Point α)) :
    List (Option (Point α)) :=
  points.map (H.project? tolerance)

end Matrix3

end Projectivity
