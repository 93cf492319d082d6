import Projectivity.Fitting.Family

/-!
# Refitting on the consensus

A model is estimated again from all items that agree with it, and the items are
classified again, until the classification stays the same.  A model is returned
together with its own classification.
-/

set_option autoImplicit false

namespace Projectivity.Fitting

variable {μ δ α : Type} [Scalar α]

/-- The number of rounds after a search. -/
def refitRounds : Nat := 10

/-- At most the given number of rounds.  A round that is degenerate or leaves too few items is
discarded and ends the refit. -/
def refit (family : Family μ δ α) (data : List δ) (threshold : Extended α) :
    Nat → μ → List Bool → μ × List Bool
  | 0, m, mask => (m, mask)
  | rounds + 1, m, mask =>
    match family.estimate m (partition data mask).1 with
    | none => (m, mask)
    | some next =>
      let nextMask := classify family next data threshold
      if marks nextMask < family.minItems then (m, mask)
      else if nextMask == mask then (next, nextMask)
      else refit family data threshold rounds next nextMask

end Projectivity.Fitting
