import Projectivity.Fitting.Iterations
import Projectivity.Fitting.Outcome
import Projectivity.Fitting.Refit

/-!
# Least median of squares

Models are estimated from random samples of least size, and the one with the least
median residual is kept.  The number of samples follows from the expected part of
outliers, and the threshold for inliers from the median.
-/

set_option autoImplicit false

namespace Projectivity.Fitting.Lmeds

variable {μ δ α σ : Type} [Scalar α]

/-- The settings of a search. -/
structure Settings (α : Type) where
  /-- The expected part of outliers. -/
  outliers : α
  /-- The probability with which a sample of inliers is drawn. -/
  confidence : α
  /-- The bound of inliers in units of the noise. -/
  multiplier : α
  /-- The least noise that is reckoned with. -/
  minScale : α
  /-- The number of samples that are drawn in one iteration before it is given up. -/
  sampleTries : Nat
  /-- Whether the best model is estimated again from its consensus. -/
  refits : Bool

/-- What stays between fits. -/
structure State (μ δ α σ : Type) where
  model : μ
  sampler : σ
  summary : Option (Summary δ α)

/-- The least number of iterations. -/
def leastIterations : Nat := 10

/-- The largest number of iterations. -/
def mostIterations : Nat := 100000

/-- The number of iterations of a search. -/
def iterations (settings : Settings α) (sampleSize : Nat) : Result Nat :=
  (sampleCount settings.outliers settings.confidence sampleSize (.int leastIterations)
    (.int mostIterations)).map Int.toNat

/-- The quotient of a standard deviation and the median absolute deviation. -/
def deviationFactor : α := Scalar.decimal 14826 4

/-- The standard deviation of the noise, from the median of the squared residuals of a number of
items. -/
def noise (minScale median : α) (items sampleSize : Int) : α :=
  let correction : α :=
    if sampleSize < items then 1 + Scalar.ofInt 5 / Scalar.ofInt (items - sampleSize) else 1
  Scalar.larger (deviationFactor * correction * Scalar.sqrt (Scalar.larger median 0)) minScale

/-- The threshold for squared residuals that follows from a median. -/
def robustThreshold (settings : Settings α) (median : α) (items sampleSize : Int) : Result α :=
  let bound := settings.multiplier * noise settings.minScale median items sampleSize
  let threshold := Scalar.square bound
  if Scalar.isFinite bound && !Scalar.isFinite threshold then .error .overflow else .ok threshold

/-- A model with its median residual. -/
structure Candidate (μ α : Type) where
  model : μ
  median : Extended α

/-- A search in progress. -/
structure Search (μ α σ : Type) where
  sampler : σ
  /-- The model of the last sample that was not degenerate. -/
  hypothesis : μ
  best : Option (Candidate μ α)

/-- A search after a further model, which is kept if its median is below the best so far. -/
def Search.consider (family : Family μ δ α) (data : List δ) (s : Search μ α σ) (m : μ) :
    Search μ α σ :=
  let s := { s with hypothesis := m }
  let bound := match s.best with
    | some best => best.median
    | none => .infinite
  match Extended.median? (data.map (family.residual m)) with
  | some median => if median.lt bound then { s with best := some ⟨m, median⟩ } else s
  | none => s

/-- One iteration.  An iteration whose samples are all degenerate yields no model. -/
def Search.step (family : Family μ δ α) (draw : Sampler σ) (settings : Settings α)
    (data : List δ) (s : Search μ α σ) : Option Fault × Search μ α σ :=
  let (outcome, sampler) :=
    estimateFromSample family draw data s.hypothesis settings.sampleTries s.sampler
  let s := { s with sampler }
  match outcome with
  | .error cause => (some cause, s)
  | .ok none => (none, s)
  | .ok (some m) => (none, s.consider family data m)

/-- The given number of iterations. -/
def Search.run (family : Family μ δ α) (draw : Sampler σ) (settings : Settings α)
    (data : List δ) : Nat → Search μ α σ → Option Fault × Search μ α σ
  | 0, s => (none, s)
  | n + 1, s =>
    match s.step family draw settings data with
    | (none, s) => Search.run family draw settings data n s
    | (some cause, s) => (some cause, s)

/-- The end of a fit whose search has ended with a finite median. -/
def conclude (family : Family μ δ α) (settings : Settings α) (state : State μ δ α σ)
    (data : List δ) (count : Nat) (best : Candidate μ α) (median : α) :
    Outcome (State μ δ α σ) Notice :=
  match robustThreshold settings median data.length family.minItems with
  | .error cause => ⟨state, .error cause, []⟩
  | .ok value =>
    let threshold := Extended.ofScalar value
    let mask := classify family best.model data threshold
    if marks mask < family.minItems then
      let summary := Summary.failure count threshold (.median best.median)
      ⟨{ state with summary := some summary }, .ok false, []⟩
    else
      let (model, mask) :=
        if settings.refits then refit family data threshold refitRounds best.model mask
        else (best.model, mask)
      let (inliers, outliers) := partition data mask
      let summary : Summary δ α :=
        ⟨true, inliers, outliers, count, threshold, .median best.median⟩
      ⟨{ state with model, summary := some summary }, .ok true, []⟩

/-- A fit of a model to items. -/
def fit (family : Family μ δ α) (draw : Sampler σ) (settings : Settings α)
    (state : State μ δ α σ) (data : List δ) : Outcome (State μ δ α σ) Notice :=
  let fail (count : Nat) (state : State μ δ α σ) : State μ δ α σ :=
    { state with summary := some (.failure count .zero .unscored) }
  if data.length < family.minItems then
    ⟨fail 0 state, .ok false, [.tooFewItems .lmeds family.minItems data.length]⟩
  else
    match iterations settings family.minItems with
    | .error cause => ⟨state, .error cause, []⟩
    | .ok count =>
      let s : Search μ α σ := ⟨state.sampler, state.model, none⟩
      match s.run family draw settings data count with
      | (some cause, s) => ⟨{ state with sampler := s.sampler }, .error cause, []⟩
      | (none, s) =>
        let state := { state with sampler := s.sampler }
        match s.best with
        | some best =>
          match best.median with
          | .finite median =>
            if Scalar.isFinite median then
              conclude family settings state data count best median
            else ⟨fail count state, .ok false, []⟩
          | .infinite => ⟨fail count state, .ok false, []⟩
        | none => ⟨fail count state, .ok false, []⟩

end Projectivity.Fitting.Lmeds
