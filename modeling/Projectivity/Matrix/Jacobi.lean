import Projectivity.Matrix.Spectrum
import Projectivity.Scalar.Double

/-!
# Singular values by plane rotations

The columns of a matrix are rotated in pairs until they are orthogonal to each
other.  Their lengths are then the singular values, and the rotations applied to
the identity give the right singular vectors.  Every column carries its part of the
rotated identity behind its own entries, so that one rotation serves both.
-/

set_option autoImplicit false

namespace Projectivity.Jacobi

/-- A matrix in the course of the rotations. -/
structure Columns where
  /-- The number of rows of the matrix. -/
  height : Nat
  /-- The columns, each followed by a column of the product of the rotations. -/
  columns : Array FloatArray

/-- The entry of a column at a position, and zero beyond its end. -/
def entry (a : FloatArray) (i : Nat) : Float := if h : i < a.size then a[i] else 0

/-- The sum of the products of the first `count` entries of two columns. -/
def dot (a b : FloatArray) (count : Nat) : Float :=
  count.fold (fun i _ acc => acc + entry a i * entry b i) 0

/-- The combination `c * a + s * b` of two columns. -/
def combine (c s : Float) (a b : FloatArray) : FloatArray :=
  a.size.fold (fun i _ out => out.push (c * entry a i + s * entry b i))
    (FloatArray.emptyWithCapacity a.size)

/-- The cosine and the sine of the angle that makes two columns orthogonal, from their squared
lengths and their product. -/
def angle (alpha beta gamma : Float) : Float × Float :=
  let zeta := (beta - alpha) / (2 * gamma)
  let t := (if zeta < 0 then -1 else 1) / (zeta.abs + (1 + zeta * zeta).sqrt)
  let c := 1 / (1 + t * t).sqrt
  (c, c * t)

/-- The relative size from which on a product of two columns counts as different from zero. -/
def orthogonalityTolerance : Float := Float.ofScientific 1 true 15

/-- The part of the larger squared length up to which a product of two columns is lost in
rounding. -/
def roundingTolerance : Float := Float.ofScientific 1 true 17

/-- Whether two columns are orthogonal, from their squared lengths and their product. -/
def isOrthogonal (alpha beta gamma : Float) : Bool :=
  gamma.abs ≤ orthogonalityTolerance * (alpha * beta).sqrt ||
    gamma.abs ≤ roundingTolerance * Scalar.larger alpha beta

/-- One rotation, unless the two columns are orthogonal already.  The flag tells whether any
rotation took place. -/
def rotate (state : Columns × Bool) (pair : Nat × Nat) : Columns × Bool :=
  let (A, _) := state
  let a := A.columns.getD pair.1 .empty
  let b := A.columns.getD pair.2 .empty
  let alpha := dot a a A.height
  let beta := dot b b A.height
  let gamma := dot a b A.height
  if isOrthogonal alpha beta gamma then state
  else
    let (c, s) := angle alpha beta gamma
    let columns := A.columns.setIfInBounds pair.1 (combine c (-s) a b)
    let columns := columns.setIfInBounds pair.2 (combine s c a b)
    ({ A with columns }, true)

/-- The pairs of different columns. -/
def pairs (width : Nat) : List (Nat × Nat) :=
  (List.range width).flatMap fun q => (List.range q).map fun p => (p, q)

/-- Rounds over all pairs until nothing is rotated any more. -/
def sweep (pairs : List (Nat × Nat)) : Nat → Columns → Columns
  | 0, A => A
  | fuel + 1, A =>
    let (B, changed) := pairs.foldl rotate (A, false)
    if changed then sweep pairs fuel B else B

/-- The columns of a matrix of the given width, in units of `size`, each followed by a column of
the identity. -/
def start (rows : Array FloatArray) (width : Nat) (size : Float) : Columns where
  height := rows.size
  columns := Array.ofFn fun j : Fin width =>
    let entries := rows.foldl (fun out row => out.push (entry row j / size)) .empty
    width.fold (fun i _ out => out.push (if i == j.val then 1 else 0)) entries

/-- The length of a column and the vector behind it. -/
def split (height : Nat) (column : FloatArray) : Float × List Float :=
  ((dot column column height).sqrt, column.toList.drop height)

/-- The singular value decomposition of a matrix given by its rows. -/
def spectrum (rows : List (List Float)) : Spectrum Float :=
  let width := (rows.headD []).length
  let largest := Scalar.largestAbs (rows.map Scalar.largestAbs)
  let size := if 0 < largest then largest else 1
  let table := (rows.map fun row => FloatArray.mk row.toArray).toArray
  let A := sweep (pairs width) 60 (start table width size)
  let columns := (A.columns.toList.map (split A.height)).mergeSort fun a b => decide (b.1 ≤ a.1)
  ⟨(columns.take (min rows.length width)).map fun c => c.1 * size, columns.map Prod.snd⟩

/-- The decomposition that programs run with. -/
instance : Spectral Float := ⟨spectrum⟩

end Projectivity.Jacobi
