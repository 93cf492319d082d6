import Projectivity.Extended
import Projectivity.Scalar.Double

/-!
# Sums of residuals

A sum of rounded numbers depends on the order of its additions.  That order is a
parameter of everything that compares such sums: `Summation` names it, and an instance
supplies it for a type of scalars.  Doubles are summed pairwise, which keeps the
rounding errors of long sums small.
-/

set_option autoImplicit false

namespace Projectivity

/-- A way to sum values over a type of scalars. -/
class Summation (α : Type) where
  /-- The sum of a list of values. -/
  total : List (Extended α) → Extended α

namespace Extended

variable {α : Type} [Scalar α]

/-- The number of partial sums that run side by side. -/
def lanes : Nat := 8

/-- The number of values up to which a sum is not split into halves. -/
def blockSize : Nat := 128

/-- The partial sum of every eighth value, from the given position on. -/
def laneSum (values : List (Extended α)) (lane : Nat) : Extended α :=
  sum ((values.zipIdx.filter fun v => v.2 % lanes == lane).map Prod.fst)

/-- The sum of a block of values.  Eight partial sums run side by side and are added in pairs, and
what is left over behind the last eight values is added one by one. -/
def blockSum (values : List (Extended α)) : Extended α :=
  let whole := values.length - values.length % lanes
  let s := laneSum (values.take whole)
  let low := ((s 0).add (s 1)).add ((s 2).add (s 3))
  let high := ((s 4).add (s 5)).add ((s 6).add (s 7))
  (values.drop whole).foldl add (low.add high)

/-- The position at which a long list of values is split for a sum, a multiple of eight. -/
def splitPosition (length : Nat) : Nat := length / 2 - length / 2 % lanes

/-- The pairwise sum of a list of values, which splits a list of more than one block in two. -/
def pairwiseSum (values : List (Extended α)) : Extended α :=
  if values.length ≤ blockSize then blockSum values
  else
    let position := splitPosition values.length
    (pairwiseSum (values.take position)).add (pairwiseSum (values.drop position))
termination_by values.length
decreasing_by
  all_goals
    rename_i hlong
    simp only [List.length_take, List.length_drop, splitPosition, lanes, blockSize] at hlong ⊢
    omega

end Extended

/-- Doubles are summed in pairs. -/
instance : Summation Float := ⟨Extended.pairwiseSum⟩

end Projectivity
