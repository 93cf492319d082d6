import Projectivity.Fitting.Fitter
import Projectivity.Fitting.Stopping.Kind

/-!
# Settings of the fitters

The settings of a fitter as they are given from outside.  All ranges are checked in
order before any number is converted.
-/

set_option autoImplicit false

namespace Projectivity.Fitting

/-- The number of samples that are drawn in one iteration where none is given. -/
def defaultTries : Nat := 100

/-- The settings of a search for consensus given as values. -/
def Ransac.Settings.read (threshold maxIterations tries : Value) (refits : Bool) :
    Result (Ransac.Settings Float) := do
  let threshold ← Quantity.threshold.check threshold
  let maxIterations ← Quantity.maxIterations.check maxIterations
  let tries ← Quantity.maxSampleRetries.check tries
  let bound ← threshold.toFloat
  let iterations ← maxIterations.truncate
  let sampleTries ← tries.truncate
  return ⟨Extended.ofScalar bound, iterations.toNat, sampleTries.toNat, refits⟩

/-- The rule by which a search for consensus ends where none is given. -/
def defaultStopping : Stopping Float := .ofRule (.adaptive Stopping.defaultConfidence)

namespace Lmeds

/-- The confidence of a search where none is given. -/
def defaultConfidence : Float := Scalar.decimal 99 2

/-- The bound of inliers in units of the noise where none is given. -/
def defaultMultiplier : Float := Scalar.decimal 25 1

/-- The least noise where none is given. -/
def defaultMinScale : Float := Scalar.decimal 1 6

/-- The settings of a search for the least median given as values. -/
def Settings.read (outliers confidence multiplier minScale tries : Value) (refits : Bool) :
    Result (Settings Float) := do
  let outliers ← Quantity.outlierProportion.check outliers
  let confidence ← Quantity.fitConfidence.check confidence
  let multiplier ← Quantity.inlierMultiplier.check multiplier
  let minScale ← Quantity.minScale.check minScale
  let outliers ← outliers.toFloat
  let confidence ← confidence.toFloat
  let multiplier ← multiplier.toFloat
  let minScale ← minScale.toFloat
  let sampleTries ← tries.toInt
  return ⟨outliers, confidence, multiplier, minScale, sampleTries.toNat, refits⟩

end Lmeds

end Projectivity.Fitting

namespace Projectivity.Fitter

variable {μ δ α σ : Type}

/-- A fitter that searches for consensus and has not fitted anything yet. -/
def newRansac (settings : Fitting.Ransac.Settings α) (stopping : Stopping α) (model : μ)
    (sampler : σ) : Fitter μ δ α σ :=
  ransac settings ⟨model, stopping, sampler, none⟩

/-- A fitter that searches for the least median and has not fitted anything yet. -/
def newLmeds (settings : Fitting.Lmeds.Settings α) (model : μ) (sampler : σ) : Fitter μ δ α σ :=
  lmeds settings ⟨model, sampler, none⟩

end Projectivity.Fitter
