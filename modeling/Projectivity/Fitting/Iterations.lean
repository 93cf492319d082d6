import Projectivity.Fault
import Projectivity.Scalar.Double
import Projectivity.Value.Number

/-!
# Numbers of samples

If a part `w` of the items are inliers, a sample of `s` items holds inliers only with
probability `w ^ s`.  After `k` samples at least one of them does with probability
`p` as soon as `k ≥ log (1 - p) / log (1 - w ^ s)`.
-/

set_option autoImplicit false

namespace Projectivity.Fitting

variable {α : Type} [Scalar α]

/-- The number of iterations when no sample of inliers can be expected. -/
def iterationCap : Int := 1000000000

/-- The least probability of a sample of inliers that is reckoned with. -/
def probabilityFloor : α := Scalar.decimal 1 300

/-- The least integer not below a number. -/
def ceiling (x : α) : Result Int :=
  if Scalar.isFinite x then .ok (Scalar.ceil x)
  else if Scalar.isAbove x || Scalar.isAbove (-x) then .error .overflow
  else .error .meaningless

/-- An integer as a scalar, which must be within the range of numbers. -/
def scalarOf (n : Int) : Result α :=
  if Scalar.isFinite (Scalar.ofInt n : α) then .ok (Scalar.ofInt n) else .error .overflow

/-- The power of a probability, which must stay within the range of numbers.  The exponent is a
scalar as well: it must be within the range, too, and a large one may be rounded. -/
def probabilityPower (base : α) (n : Int) : Result α := do
  let power := Scalar.pow base (Scalar.roundEven (← scalarOf n : α))
  if n < 0 ∧ base ≤ 0 ∧ 0 ≤ base then throw .divisionByZero
  else if Scalar.isFinite base && !Scalar.isFinite power then throw .overflow
  else return power

/-- The part of the items that are inliers. -/
def inlierPart (inliers items : Int) : Result α := do
  let whole : α ← scalarOf items
  let part ← scalarOf inliers
  if items = 0 then throw .divisionByZero else return part / whole

/-- The number of iterations after which a sample of inliers has been drawn with a given
confidence. -/
def requiredIterations (confidence ratio : α) (sampleSize : Int) : Result Int :=
  if sampleSize ≤ 0 then .error (.outOfRange .sampleSize (.int sampleSize))
  else
    let w := Scalar.smaller (Scalar.larger ratio 0) 1
    if 1 ≤ w then .ok 1
    else if w ≤ 0 then .ok iterationCap
    else do
      let good ← probabilityPower w sampleSize
      if good ≤ probabilityFloor then return iterationCap
      else
        let decay := Scalar.log1p (-good)
        if 0 ≤ decay then return 1
        else
          let k ← ceiling (Scalar.log1p (-confidence) / decay)
          return min (max 1 k) iterationCap

/-- The number of iterations for a number of inliers among the items. -/
def iterationsFor (confidence : α) (inliers items sampleSize : Int) : Result Int := do
  requiredIterations confidence (← inlierPart inliers items) sampleSize

/-- The number of iterations for a confidence that has to lie between zero and one.  Another one is
reported as a double. -/
def checkedIterations (report : α → Float) (confidence ratio : α) (sampleSize : Int) :
    Result Int :=
  if sampleSize ≤ 0 then .error (.outOfRange .sampleSize (.int sampleSize))
  else if 0 < confidence ∧ confidence < 1 then
    requiredIterations confidence ratio sampleSize
  else .error (.outOfRange .stopConfidence (.float (report confidence)))

/-- The number of iterations for a confidence that is a double. -/
def requiredIterationsChecked (confidence ratio : Float) (sampleSize : Int) : Result Int :=
  checkedIterations id confidence ratio sampleSize

/-- The logarithm of one plus a number above minus one. -/
def logarithm (x : α) : Result α :=
  if x ≤ -1 then .error .meaningless else .ok (Scalar.log1p x)

/-- An integer brought between two bounds, the upper one being the stronger, without the
fractional part of the result. -/
def clamp (k : Int) (least most : Number) : Result Int :=
  let raised := if least.gt k then least else .int k
  let isBelow : Bool := match raised with
    | .int n => most.lt n
    | .real x => match most with
      | .int n => Number.gt (.real x) n
      | .real y => decide (y < x)
  (if isBelow then most else raised).truncate

/-- The number of samples for an expected part of outliers, brought between two bounds. -/
def sampleCount (outliers confidence : α) (sampleSize : Int) (least most : Number) :
    Result Int := do
  let good ← probabilityPower (1 - outliers) sampleSize
  if 1 ≤ good then least.truncate
  else if good ≤ 0 then most.truncate
  else
    let failure ← logarithm (-confidence)
    let decay ← logarithm (-good)
    let k ← ceiling (failure / decay)
    clamp k least most

end Projectivity.Fitting
