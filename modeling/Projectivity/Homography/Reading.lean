import Projectivity.Homography.Estimator
import Projectivity.Point.Reading

/-!
# Fits to data that has to be read

A fitter and an estimator take correspondences as plain data.  All of the data is read
before anything else happens, and data that cannot be read changes nothing.
-/

set_option autoImplicit false

namespace Projectivity

/-- A fit to the correspondences that a value lists. -/
def Fitting.onRead {S N : Type} (fit : S → List (Correspondence Float) → Outcome S N) (s : S)
    (v : Value) : Outcome S N :=
  match Correspondence.readAll v with
  | .error cause => ⟨s, .error cause, []⟩
  | .ok data => fit s data

/-- A fit of a model to the correspondences that a value lists. -/
def Fitter.fitRead {μ σ : Type} (family : Family μ (Correspondence Float) Float)
    (draw : Sampler σ) (f : Fitter μ (Correspondence Float) Float σ) (v : Value) :
    Fitting.Outcome (Fitter μ (Correspondence Float) Float σ) Fitting.Notice :=
  Fitting.onRead (Fitter.fit family draw) f v

/-- The estimation of a homography from the correspondences that a value lists. -/
def Estimator.fitRead {σ : Type} [Spectral Float] (draw : Sampler σ) (e : Estimator Float σ)
    (v : Value) : Fitting.Outcome (Estimator Float σ) Estimator.Notice :=
  Fitting.onRead (Estimator.fit draw) e v

end Projectivity
