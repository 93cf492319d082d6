import Projectivity.Configuration.Basic
import Projectivity.Fitting.Settings
import Projectivity.Homography.Estimator
import Projectivity.Random.Selection

/-!
# Estimators from settings

The estimators of homographies with either method of fitting, and the estimator that a
configuration describes.  The settings are checked before the seed is looked at.
-/

set_option autoImplicit false

namespace Projectivity

namespace Estimator

variable {σ : Type}

/-- An estimator around a fitter that measures residuals in a direction. -/
def ofFitter (fitter : Fitter (Homography Float) (Correspondence Float) Float σ)
    (direction : Transfer) (refinement : Refinement.Settings) : Estimator Float σ :=
  ⟨fitter, direction, refinement.mode, refinement.solver, false⟩

/-- An estimator that searches for consensus on the error in the destination view. -/
def withRansac (threshold maxIterations : Value) (stopping : Stopping Float)
    (refinement : Refinement.Settings) (sampler : Result σ) : Result (Estimator Float σ) := do
  let settings ← Fitting.Ransac.Settings.read threshold maxIterations
    (.int Fitting.defaultTries) true
  return ofFitter (.newRansac settings stopping Homography.identity (← sampler)) .forward
    refinement

/-- An estimator that searches for the least median error in the destination view. -/
def withLmeds (outliers : Value) (refinement : Refinement.Settings) (sampler : Result σ) :
    Result (Estimator Float σ) := do
  let settings ← Fitting.Lmeds.Settings.read outliers (.float Fitting.Lmeds.defaultConfidence)
    (.float Fitting.Lmeds.defaultMultiplier) (.float Fitting.Lmeds.defaultMinScale)
    (.int Fitting.defaultTries) true
  return ofFitter (.newLmeds settings Homography.identity (← sampler)) .forward refinement

end Estimator

namespace Configuration

variable {σ : Type}

/-- The estimator that a configuration describes, where `sampler` sets up the random state for a
seed.  A seed that is given replaces the one of the configuration. -/
def create (sampler : Value → Result σ) (c : Configuration) (seed : Value) :
    Result (Estimator Float σ) := do
  c.validate
  let seed := match seed with
    | .null => c.seed
    | seed => seed
  match c.method with
  | .lmeds => Estimator.withLmeds c.outlierProportion c.refinement (sampler seed)
  | .ransac =>
    let rule ← Stopping.Rule.read (.text c.stopping.name) (.record c.parameters)
    Estimator.withRansac c.threshold c.maxIterations (.ofRule rule) c.refinement (sampler seed)

end Configuration

end Projectivity
