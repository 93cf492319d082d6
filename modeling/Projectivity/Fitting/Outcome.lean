import Projectivity.Fitting.Family

/-!
# Outcomes of a fit

What a fit reports, and what it leaves behind.
-/

set_option autoImplicit false

namespace Projectivity.Fitting

/-- The methods of robust fitting. -/
inductive Method where
  | ransac
  | lmeds
deriving DecidableEq

/-- A method as it is called in messages. -/
def Method.title : Method → String
  | ransac => "RANSAC"
  | lmeds => "LMedS"

/-- The quality of the best model of a search. -/
inductive Score (α : Type) where
  /-- No model was scored. -/
  | unscored
  /-- The number of inliers. -/
  | count (inliers : Nat)
  /-- The median residual. -/
  | median (residual : Extended α)

/-- What is known about the last fit. -/
structure Summary (δ α : Type) where
  success : Bool
  inliers : List δ
  outliers : List δ
  /-- The number of iterations that were run. -/
  iterations : Nat
  /-- The residual up to which an item is an inlier. -/
  threshold : Extended α
  score : Score α

/-- The summary of a fit that found no model. -/
def Summary.failure {δ α : Type} (iterations : Nat) (threshold : Extended α) (score : Score α) :
    Summary δ α :=
  ⟨false, [], [], iterations, threshold, score⟩

/-- The part of the items that are inliers; zero before any item was classified. -/
def Summary.inlierRatio {δ α : Type} [Scalar α] (s : Summary δ α) : α :=
  let total := s.inliers.length + s.outliers.length
  if total = 0 then 0 else ((s.inliers.length : Nat) : α) / ((total : Nat) : α)

/-- Why a fit is worth a warning. -/
inductive Notice where
  | tooFewItems (method : Method) (needed got : Nat)

/-- A warning as text. -/
def Notice.message : Notice → String
  | tooFewItems method needed got =>
    method.title ++ " needs at least " ++ toString needed ++ " correspondences, got " ++
      toString got

/-- The end of a fit: the state that it leaves behind, whether it found a model, and its
warnings.  A fault leaves behind the state in which it arose. -/
structure Outcome (State N : Type) where
  state : State
  answer : Result Bool
  notices : List N

end Projectivity.Fitting
