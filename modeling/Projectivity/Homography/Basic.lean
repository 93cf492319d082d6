import Projectivity.Fault
import Projectivity.Homography.Linear
import Projectivity.Homography.Projection

/-!
# Homographies

A homography is a projective map between two planes, held as a three by three
matrix.
-/

set_option autoImplicit false

namespace Projectivity

/-- A projective map between two planes. -/
structure Homography (α : Type) where
  matrix : Matrix3 α
deriving DecidableEq

namespace Homography

variable {α : Type} [Scalar α]

/-- The map that leaves every point where it is. -/
def identity : Homography α := ⟨Matrix3.one⟩

/-- The homography of a matrix, whose entries have to be finite. -/
def ofMatrix (A : Matrix3 α) : Result (Homography α) :=
  if A.isFinite then .ok ⟨A⟩ else .error .nonFiniteEntry

/-- The image of a point.  A point at infinity is answered by its homogeneous image. -/
def apply (H : Homography α) (p : Point α) : Except (Homogeneous α) (Point α) :=
  let h := H.matrix.apply p
  if Scalar.abs h.w ≤ Matrix3.infinityTolerance * H.matrix.norm then .error h
  else .ok h.dehomogenize

/-- The images of a list of points, with nothing for a point at infinity. -/
def applyAll (H : Homography α) (points : List (Point α)) : List (Option (Point α)) :=
  H.matrix.projectAll Matrix3.infinityTolerance points

/-- An image as a row of two coordinates, both of them infinity for a point at infinity. -/
def row (infinity : α) (image : Option (Point α)) : Point α := image.getD ⟨infinity, infinity⟩

/-- The images of a list of points as rows of coordinates. -/
def rows (H : Homography α) (infinity : α) (points : List (Point α)) : List (Point α) :=
  (H.applyAll points).map (row infinity)

/-- The row at a position is the image of the point there. -/
theorem getElem?_rows (H : Homography α) (infinity : α) (points : List (Point α)) (i : Nat) :
    (H.rows infinity points)[i]? =
      points[i]?.map fun p => row infinity (H.matrix.project? Matrix3.infinityTolerance p) := by
  unfold rows applyAll Matrix3.projectAll
  rw [List.map_map, List.getElem?_map]
  rfl

variable [Spectral α]

/-- The homography estimated from correspondences.  It depends on them alone, and there is none
for degenerate data. -/
def estimate? (_ : Homography α) (data : List (Correspondence α)) : Option (Homography α) :=
  (Linear.estimate? Linear.rankTolerance data).map Homography.mk

/-- Whether there is an estimate, and the homography behind the estimation, which stays as it is
without one. -/
def adopt (H : Homography α) : Option (Homography α) → Bool × Homography α
  | some estimate => (true, estimate)
  | none => (false, H)

/-- The estimation of a homography as a step from one homography to the next. -/
def estimate (H : Homography α) (data : List (Correspondence α)) : Bool × Homography α :=
  H.adopt (H.estimate? data)

/-- The inverse map, unless the matrix is singular. -/
def inverse (H : Homography α) : Result (Homography α) :=
  if H.matrix.isNonSingular Matrix3.rankTolerance then ofMatrix H.matrix.inverse
  else .error .singularTransform

end Homography

end Projectivity
