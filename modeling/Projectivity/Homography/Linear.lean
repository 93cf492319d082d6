import Projectivity.Homography.Normalization
import Projectivity.Matrix.Spectrum

/-!
# Linear estimation

A homography maps every source point to its destination if and only if its entries
solve a homogeneous linear system with two equations for each correspondence.  The
estimate is the right singular vector of the least singular value of that system,
set up in normalized coordinates.  Systems whose kernel is not a line and singular
solutions are rejected.
-/

set_option autoImplicit false

namespace Projectivity.Linear

variable {α : Type} [Scalar α] [Spectral α]

/-- The two equations of a correspondence for the entries of a homography row by row. -/
def equations (c : Correspondence α) : List (List α) :=
  let x := c.source.x
  let y := c.source.y
  let u := c.destination.x
  let v := c.destination.y
  [[x, y, 1, 0, 0, 0, -u * x, -u * y, -u],
    [0, 0, 0, x, y, 1, -v * x, -v * y, -v]]

/-- The equations of a list of correspondences in normalized coordinates. -/
def system (S D : Matrix3 α) (data : List (Correspondence α)) : List (List α) :=
  data.flatMap fun c =>
    equations ⟨Normalization.normalize S c.source, Normalization.normalize D c.destination⟩

/-- The solution of a system up to scale, unless its eighth singular value is at most the given
part of its first. -/
def solution? (tolerance : α) (rows : List (List α)) : Option (Matrix3 α) :=
  let spectrum := Spectral.spectrum rows
  match spectrum.values[0]?, spectrum.values[7]?, spectrum.vectors[8]? with
  | some first, some eighth, some kernel =>
    if eighth ≤ tolerance * first then none else Matrix3.ofEntries? kernel
  | _, _, _ => none

/-- The part of the first singular value up to which the eighth counts as zero. -/
def rankTolerance : α := Scalar.decimal 1 10

/-- The least number of correspondences that determine a homography. -/
def minItems : Nat := 4

/-- The homography of a list of correspondences, of Frobenius norm one.  There is none for fewer
than four correspondences and for degenerate ones. -/
def estimate? (tolerance : α) (data : List (Correspondence α)) : Option (Matrix3 α) := do
  if data.length < minItems then none
  else
    let S ← Normalization.transform? (Correspondence.sources data)
    let D ← Normalization.transform? (Correspondence.destinations data)
    let G ← solution? tolerance (system S D data)
    let H := (D.inverse.mul G).mul S
    if H.isNonSingular Matrix3.rankTolerance then some H.canonicalScale else none

end Projectivity.Linear
