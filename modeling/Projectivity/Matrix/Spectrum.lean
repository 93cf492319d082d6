import Projectivity.Matrix.Basic

/-!
# Singular values

A singular value decomposition is a parameter of everything that is estimated from
it: `Spectral` names it, and an instance supplies it for a type of scalars.
-/

set_option autoImplicit false

namespace Projectivity

/-- Singular values and right singular vectors of a matrix given by its rows. -/
structure Spectrum (α : Type) where
  /-- The singular values in descending order, as many as the smaller dimension. -/
  values : List α
  /-- An orthonormal basis of right singular vectors, one for each column, in the order of the
  singular values; the vectors beyond the last value span the rest of the kernel. -/
  vectors : List (List α)

/-- A singular value decomposition over a type of scalars. -/
class Spectral (α : Type) where
  /-- The decomposition of a matrix given by its rows. -/
  spectrum : List (List α) → Spectrum α

namespace Matrix3

variable {α : Type} [Scalar α] [Spectral α]

/-- The smallest ratio of singular values at which a transform counts as non-singular. -/
def rankTolerance : α := Scalar.decimal 1 12

/-- Whether a matrix is finite and its smallest singular value exceeds the given part of its
largest. -/
def isNonSingular (A : Matrix3 α) (tolerance : α) : Bool :=
  A.isFinite &&
    match (Spectral.spectrum A.rows).values with
    | [first, _, last] => decide (0 < first) && decide (tolerance * first < last)
    | _ => false

end Matrix3

end Projectivity
