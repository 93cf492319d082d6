import Projectivity.Fault
import Projectivity.Homography.Projection
import Projectivity.Matrix.Spectrum

/-!
# Transfer errors as vectors

The coordinate differences whose squares a refinement adds up.  A difference that is
not a finite number is replaced by a large penalty, so that every vector is finite.
-/

set_option autoImplicit false

namespace Projectivity.ErrorVector

variable {α : Type} [Scalar α]

/-- What stands for a difference that is not a finite number. -/
def penalty : α := ((1000000 : Nat) : α)

/-- A finite number as it is, and the penalty for everything else. -/
def penalize (x : α) : α := if Scalar.isFinite x then x else penalty

/-- The differences between a point and an image, coordinate by coordinate. -/
def difference (target : Point α) (image : Option (Point α)) : List α :=
  match image with
  | some p => [penalize (target.x - p.x), penalize (target.y - p.y)]
  | none => [penalty, penalty]

/-- The differences in the destination view. -/
def forward (H : Matrix3 α) (data : List (Correspondence α)) : List α :=
  data.flatMap fun c =>
    difference c.destination (H.project? Matrix3.infinityTolerance c.source)

/-- The penalties for `count` points. -/
def penalties (count : Nat) : List α := List.replicate (2 * count) penalty

variable [Spectral α]

/-- The differences in the source view, all of them penalties under a singular transform. -/
def inverse (H : Matrix3 α) (data : List (Correspondence α)) : List α :=
  if H.isNonSingular Matrix3.rankTolerance then
    let K := H.inverse
    data.flatMap fun c =>
      difference c.source (K.project? Matrix3.infinityTolerance c.destination)
  else penalties data.length

/-- The differences in both views. -/
def symmetric (H : Matrix3 α) (data : List (Correspondence α)) : List α :=
  forward H data ++ inverse H data

/-- The correspondences between two lists of points, where a single point corresponds to every
point of the other list. -/
def align (sources destinations : List (Point α)) : Result (List (Correspondence α)) :=
  match Point.align? sources destinations with
  | some pairs => .ok (pairs.map fun p => ⟨p.1, p.2⟩)
  | none => .error .meaningless

/-- The differences in the destination view between two lists of points. -/
def forwardBetween (H : Matrix3 α) (sources destinations : List (Point α)) : Result (List α) :=
  (align sources destinations).map (forward H)

/-- The differences in the source view between two lists of points.  Under a singular transform
the lists are not compared. -/
def inverseBetween (H : Matrix3 α) (sources destinations : List (Point α)) : Result (List α) :=
  if H.isNonSingular Matrix3.rankTolerance then
    (align sources destinations).map (inverse H)
  else .ok (penalties sources.length)

/-- The differences in both views between two lists of points. -/
def symmetricBetween (H : Matrix3 α) (sources destinations : List (Point α)) :
    Result (List α) := do
  let a ← forwardBetween H sources destinations
  let b ← inverseBetween H sources destinations
  return a ++ b

end Projectivity.ErrorVector
