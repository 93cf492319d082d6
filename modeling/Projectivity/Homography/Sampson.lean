import Projectivity.Homography.ErrorVector

/-!
# The Sampson correction

The two equations that a correspondence has to satisfy are linear in the transform
but not in the four coordinates.  The Sampson correction is the shortest change of
the coordinates that satisfies the equations to first order.
-/

set_option autoImplicit false

namespace Projectivity.Sampson

variable {α : Type} [Scalar α]

/-- The errors of the two equations of a correspondence. -/
def errors (H : Matrix3 α) (c : Correspondence α) : α × α :=
  let h := H.apply c.source
  (-h.y + c.destination.y * h.w, h.x - c.destination.x * h.w)

/-- The derivatives of the two errors by the source and the destination coordinates. -/
def jacobian (H : Matrix3 α) (c : Correspondence α) : List α × List α :=
  let w := (H.apply c.source).w
  let u := c.destination.x
  let v := c.destination.y
  ([-H.m21 + v * H.m31, -H.m22 + v * H.m32, 0, w],
    [H.m11 - u * H.m31, H.m12 - u * H.m32, -w, 0])

/-- The determinant of the products of the two rows of derivatives with each other. -/
def gramDeterminant (J : List α × List α) : α :=
  Scalar.dot J.1 J.1 * Scalar.dot J.2 J.2 - Scalar.dot J.1 J.2 * Scalar.dot J.2 J.1

/-- The size up to which the determinant counts as zero. -/
def determinantBound : α := Scalar.decimal 1 300

/-- The multipliers of the two rows of derivatives that make up the correction. -/
def multipliers (J : List α × List α) (e : α × α) : α × α :=
  let d := gramDeterminant J
  let a := Scalar.dot J.2 J.2 / d
  let b := -Scalar.dot J.1 J.2 / d
  let c := -Scalar.dot J.2 J.1 / d
  let f := Scalar.dot J.1 J.1 / d
  (a * e.1 + b * e.2, c * e.1 + f * e.2)

/-- The correction of the four coordinates, unless the derivatives are dependent. -/
def correction? (H : Matrix3 α) (c : Correspondence α) : Option (List α) :=
  let J := jacobian H c
  if determinantBound < Scalar.abs (gramDeterminant J) then
    let m := multipliers J (errors H c)
    some (List.zipWith (fun a b => -(a * m.1 + b * m.2)) J.1 J.2)
  else none

/-- The corrections of a list of correspondences, with penalties in place of what is not a
finite number. -/
def vector (H : Matrix3 α) (data : List (Correspondence α)) : List α :=
  data.flatMap fun c =>
    match correction? H c with
    | some d => d.map ErrorVector.penalize
    | none => List.replicate 4 ErrorVector.penalty

/-- The corrections between two lists of points of equal length. -/
def vectorBetween (H : Matrix3 α) (sources destinations : List (Point α)) : Result (List α) :=
  if sources.length == destinations.length then
    (ErrorVector.align sources destinations).map (vector H)
  else .error .meaningless

end Projectivity.Sampson
