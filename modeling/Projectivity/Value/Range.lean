import Projectivity.Value.Number

/-!
# Ranges of quantities

The numbers that each quantity may have.  A quantity that is only bounded below may be
the undefined number, since that number is not below anything.
-/

set_option autoImplicit false

namespace Projectivity.Quantity

/-- Whether a quantity may have a value. -/
def allows (q : Quantity) (x : Number) : Bool :=
  match q with
  | threshold | minScale => !x.lt 0
  | maxIterations | maxSampleRetries | refinementMaxIterations | limit | sampleSize => !x.lt 1
  | inlierMultiplier | refinementTolerance => !x.le 0
  | outlierProportion => x.ge 0 && x.lt 1
  | fitConfidence | stopConfidence => x.gt 0 && x.lt 1
  | percentage => x.gt 0 && x.le 1

/-- The number that a value is, which has to be one that the quantity may have. -/
def check (q : Quantity) (v : Value) : Result Number := do
  let x ← v.number
  if q.allows x then return x else throw (.outOfRange q v)

end Projectivity.Quantity
