import Projectivity.Fitting.Lmeds
import Projectivity.Fitting.Ransac

/-!
# Fitters

The two methods of robust fitting behind one interface.
-/

set_option autoImplicit false

namespace Projectivity

/-- A robust fitter with what it keeps between fits. -/
inductive Fitter (μ δ α σ : Type) where
  | ransac (settings : Fitting.Ransac.Settings α) (state : Fitting.Ransac.State μ δ α (Stopping α) σ)
  | lmeds (settings : Fitting.Lmeds.Settings α) (state : Fitting.Lmeds.State μ δ α σ)

namespace Fitter

variable {μ δ α σ : Type}

/-- The method of a fitter. -/
def method : Fitter μ δ α σ → Fitting.Method
  | ransac .. => .ransac
  | lmeds .. => .lmeds

/-- The model of a fitter. -/
def model : Fitter μ δ α σ → μ
  | ransac _ state => state.model
  | lmeds _ state => state.model

/-- A fitter with its model replaced. -/
def withModel (m : μ) : Fitter μ δ α σ → Fitter μ δ α σ
  | ransac settings state => ransac settings { state with model := m }
  | lmeds settings state => lmeds settings { state with model := m }

/-- The random state of a fitter. -/
def sampler : Fitter μ δ α σ → σ
  | ransac _ state => state.sampler
  | lmeds _ state => state.sampler

/-- What is known about the last fit, if there was one. -/
def summary : Fitter μ δ α σ → Option (Fitting.Summary δ α)
  | ransac _ state => state.summary
  | lmeds _ state => state.summary

/-- The inliers of the last fit. -/
def inliers (f : Fitter μ δ α σ) : List δ :=
  match f.summary with
  | some s => s.inliers
  | none => []

/-- The outliers of the last fit. -/
def outliers (f : Fitter μ δ α σ) : List δ :=
  match f.summary with
  | some s => s.outliers
  | none => []

/-- The stopping rule of a fitter that has one. -/
def stopping? : Fitter μ δ α σ → Option (Stopping α)
  | ransac _ state => some state.stopping
  | lmeds .. => none

/-- A fit of a model to items. -/
def fit [Scalar α] [Summation α] (family : Family μ δ α) (draw : Sampler σ) (f : Fitter μ δ α σ)
    (data : List δ) : Fitting.Outcome (Fitter μ δ α σ) Fitting.Notice :=
  match f with
  | ransac settings state =>
    let outcome := Fitting.Ransac.fit family draw settings state data
    ⟨ransac settings outcome.state, outcome.answer, outcome.notices⟩
  | lmeds settings state =>
    let outcome := Fitting.Lmeds.fit family draw settings state data
    ⟨lmeds settings outcome.state, outcome.answer, outcome.notices⟩

end Fitter

end Projectivity
