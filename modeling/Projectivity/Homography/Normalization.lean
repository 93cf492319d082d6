import Projectivity.Matrix.Basic

/-!
# Normalization of point sets

The similarity that moves the centroid of a set of points to the origin and makes
their mean distance from it the square root of two.  Estimates are computed in
coordinates normalized this way.
-/

set_option autoImplicit false

namespace Projectivity.Normalization

variable {α : Type} [Scalar α]

/-- The mean distance of a set of points from a point. -/
def meanDistance (points : List (Point α)) (center : Point α) : α :=
  Scalar.mean (points.map fun p => (p.sub center).length)

/-- The mean distance from the centroid below which points count as coincident. -/
def coincidenceBound : α := Scalar.decimal 1 12

/-- The map that moves a center to the origin and multiplies distances by a scale. -/
def similarity (scale : α) (center : Point α) : Matrix3 α :=
  ⟨scale, 0, -scale * center.x, 0, scale, -scale * center.y, 0, 0, 1⟩

/-- The normalizing similarity, unless the points coincide or their spread is not finite. -/
def transform? (points : List (Point α)) : Option (Matrix3 α) :=
  let center := Point.centroid points
  let distance := meanDistance points center
  if Scalar.isFinite distance && !decide (distance < coincidenceBound) then
    some (similarity (Scalar.sqrt ((2 : Nat) : α) / distance) center)
  else none

/-- A point in normalized coordinates. -/
def normalize (T : Matrix3 α) (p : Point α) : Point α :=
  let h := T.apply p
  ⟨h.x, h.y⟩

end Projectivity.Normalization
