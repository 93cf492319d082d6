import Projectivity.Fitting.Fitter
import Projectivity.Homography.Basic
import Projectivity.Homography.Refinement
import Projectivity.Homography.Residual

/-!
# Robust estimation of homographies

A robust fitter finds a homography and its inliers, and a refinement improves it on
them.  If the fitter finds nothing, a linear estimate from all of the data is left
in its place.  Nothing of an earlier estimation shows in a later one.
-/

set_option autoImplicit false

namespace Projectivity

/-- The family of homographies with a residual. -/
def Homography.family {α : Type} [Scalar α] [Spectral α] (direction : Transfer) :
    Family (Homography α) (Correspondence α) α where
  minItems := Linear.minItems
  estimate := Homography.estimate?
  residual H c := direction.residual H.matrix c

/-- A robust fitter of homographies together with a refinement. -/
structure Estimator (α σ : Type) where
  fitter : Fitter (Homography α) (Correspondence α) α σ
  /-- The direction in which the fitter measures residuals. -/
  direction : Transfer
  refinement : Refinement
  solver : Refinement.Solver α
  /-- Whether the last estimation succeeded. -/
  success : Bool

namespace Estimator

/-- Why an estimation is worth a warning. -/
inductive Notice where
  | tooFewItems (needed got : Nat)
  | fitting (notice : Fitting.Notice)
  | linearInstead (items : Nat)
  | allFailed
  | refinement (mode : Refinement) (notice : Refinement.Notice)

/-- A warning as text. -/
def Notice.message : Notice → String
  | tooFewItems needed got =>
    "Cannot estimate homography from " ++ toString got ++ " correspondences, need at least " ++
      toString needed
  | fitting notice => notice.message
  | linearInstead items =>
    "Robust fitting found no consensus among " ++ toString items ++
      " correspondences, using non-robust DLT estimate"
  | allFailed => "Robust fitting and non-robust DLT both failed"
  | refinement mode notice => notice.message mode

variable {α σ : Type} [Scalar α] [Summation α] [Spectral α]

/-- The homography of the estimator. -/
def model (e : Estimator α σ) : Homography α := e.fitter.model

/-- An estimator with its homography replaced. -/
def withModel (e : Estimator α σ) (H : Homography α) : Estimator α σ :=
  { e with fitter := e.fitter.withModel H }

/-- The end of an estimation whose fitter found nothing. -/
def fallBack (e : Estimator α σ) (data : List (Correspondence α)) :
    Fitting.Outcome (Estimator α σ) Notice :=
  match e.model.estimate? data with
  | some H => ⟨e.withModel H, .ok false, [.linearInstead data.length]⟩
  | none => ⟨e, .ok false, [.allFailed]⟩

/-- The end of an estimation whose fitter found a homography. -/
def refine (e : Estimator α σ) : Fitting.Outcome (Estimator α σ) Notice :=
  match e.refinement.refine e.solver e.model.matrix e.fitter.inliers with
  | .error cause => ⟨e, .error cause, []⟩
  | .ok outcome =>
    let notices := outcome.notices.map (.refinement e.refinement)
    match Homography.ofMatrix outcome.matrix with
    | .error cause => ⟨e, .error cause, notices⟩
    | .ok H => ⟨{ e.withModel H with success := true }, .ok true, notices⟩

/-- The estimation of a homography from correspondences. -/
def fit (draw : Sampler σ) (e : Estimator α σ) (data : List (Correspondence α)) :
    Fitting.Outcome (Estimator α σ) Notice :=
  let family := Homography.family e.direction
  let e := { e.withModel Homography.identity with success := false }
  let outcome := e.fitter.fit family draw data
  let e := { e with fitter := outcome.state }
  let notices := outcome.notices.map Notice.fitting
  if data.length < family.minItems then
    ⟨e, outcome.answer.map fun _ => false,
      .tooFewItems family.minItems data.length :: notices⟩
  else
    let next : Fitting.Outcome (Estimator α σ) Notice := match outcome.answer with
      | .error cause => ⟨e, .error cause, []⟩
      | .ok false => e.fallBack data
      | .ok true => e.refine
    { next with notices := notices ++ next.notices }

end Estimator

end Projectivity
