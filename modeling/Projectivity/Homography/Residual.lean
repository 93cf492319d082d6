import Projectivity.Extended
import Projectivity.Homography.Projection
import Projectivity.Matrix.Spectrum

/-!
# Transfer residuals

The squared distance between a point and the image of its partner, in one of the two
views or in both.  Hypotheses are scored with these residuals.  An image at infinity
has an infinite residual.
-/

set_option autoImplicit false

namespace Projectivity

/-- The directions in which a transfer error is measured. -/
inductive Transfer where
  | forward
  | inverse
  | symmetric
deriving DecidableEq

namespace Transfer

variable {α : Type} [Scalar α]

/-- The squared distance of an image from the point where it should be. -/
def squaredError (image : Option (Point α)) (target : Point α) : Extended α :=
  match image with
  | some p => Extended.bounded (p.sub target).squaredLength
  | none => .infinite

/-- The squared error of the image of the source. -/
def forwardError (H : Matrix3 α) (c : Correspondence α) : Extended α :=
  squaredError (H.project? Matrix3.infinityTolerance c.source) c.destination

variable [Spectral α]

/-- The squared error of the preimage of the destination, which is infinite under a singular
transform. -/
def inverseError (H : Matrix3 α) (c : Correspondence α) : Extended α :=
  if H.isNonSingular Matrix3.rankTolerance then
    squaredError (H.inverse.project? Matrix3.infinityTolerance c.destination) c.source
  else .infinite

/-- The residual of a correspondence under a transform. -/
def residual (direction : Transfer) (H : Matrix3 α) (c : Correspondence α) : Extended α :=
  match direction with
  | forward => forwardError H c
  | inverse => inverseError H c
  | symmetric => (forwardError H c).add (inverseError H c)

end Transfer

end Projectivity
