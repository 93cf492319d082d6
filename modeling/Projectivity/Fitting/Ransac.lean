import Projectivity.Extended.Summation
import Projectivity.Fitting.Outcome
import Projectivity.Fitting.Refit
import Projectivity.Fitting.Stopping

/-!
# Random sample consensus

Models are estimated from random samples of least size, and the one that the most
items agree with is kept.  A model found this way is estimated again from its
consensus.
-/

set_option autoImplicit false

namespace Projectivity.Fitting.Ransac

variable {μ δ α τ σ : Type} [Scalar α] [Summation α] [Stopping.Policy τ]

/-- The settings of a search. -/
structure Settings (α : Type) where
  /-- The residual up to which an item is an inlier. -/
  threshold : Extended α
  maxIterations : Nat
  /-- The number of samples that are drawn in one iteration before it is given up. -/
  sampleTries : Nat
  /-- Whether the best model is estimated again from its consensus. -/
  refits : Bool

/-- What stays between fits. -/
structure State (μ δ α τ σ : Type) where
  model : μ
  stopping : τ
  sampler : σ
  summary : Option (Summary δ α)

/-- A model with the items that agree with it. -/
structure Candidate (μ α : Type) where
  model : μ
  mask : List Bool
  inliers : Nat
  /-- The sum of the residuals of the inliers. -/
  error : Extended α

/-- The candidate of a model. -/
def Candidate.of (family : Family μ δ α) (data : List δ) (threshold : Extended α) (m : μ) :
    Candidate μ α :=
  let residuals := data.map (family.residual m)
  let mask := residuals.map fun r => r.le threshold
  let inliers := marks mask
  ⟨m, mask, inliers,
    if inliers = 0 then .infinite else Summation.total (residuals.filter fun r => r.le threshold)⟩

/-- Whether a candidate has more inliers than another one, or as many with a smaller error. -/
def Candidate.beats (a b : Candidate μ α) : Bool :=
  decide (b.inliers < a.inliers) || (a.inliers == b.inliers && a.error.lt b.error)

/-- The better of the best candidate so far and a new one; the earlier one on a tie. -/
def Candidate.better (best : Option (Candidate μ α)) (a : Candidate μ α) : Candidate μ α :=
  match best with
  | some b => if a.beats b then a else b
  | none => a

/-- A search in progress. -/
structure Search (μ α τ σ : Type) where
  sampler : σ
  /-- The model of the last sample that was not degenerate. -/
  hypothesis : μ
  best : Option (Candidate μ α)
  stopping : τ
  /-- The number of iterations that were begun. -/
  iterations : Nat

/-- How one iteration ends. -/
inductive Verdict where
  | goOn
  | stop
  | fault (cause : Fault)

/-- A search after a further candidate, and whether the search may end there. -/
def Search.consider (family : Family μ δ α) (s : Search μ α τ σ) (a : Candidate μ α) :
    Verdict × Search μ α τ σ :=
  let best := Candidate.better s.best a
  let s := { s with hypothesis := a.model, best := some best }
  if best.inliers < family.minItems then (.goOn, s)
  else
    let (outcome, stopping) := Stopping.Policy.shouldStop s.stopping best.inliers s.iterations
    let verdict := match outcome with
      | .ok true => Verdict.stop
      | .ok false => .goOn
      | .error cause => .fault cause
    (verdict, { s with stopping })

/-- One iteration.  An iteration whose samples are all degenerate yields no candidate and does
not end the search. -/
def Search.step (family : Family μ δ α) (draw : Sampler σ) (settings : Settings α)
    (data : List δ) (s : Search μ α τ σ) : Verdict × Search μ α τ σ :=
  let (outcome, sampler) :=
    estimateFromSample family draw data s.hypothesis settings.sampleTries s.sampler
  let s := { s with sampler, iterations := s.iterations + 1 }
  match outcome with
  | .error cause => (.fault cause, s)
  | .ok none => (.goOn, s)
  | .ok (some m) => s.consider family (Candidate.of family data settings.threshold m)

/-- At most the given number of iterations. -/
def Search.run (family : Family μ δ α) (draw : Sampler σ) (settings : Settings α)
    (data : List δ) : Nat → Search μ α τ σ → Option Fault × Search μ α τ σ
  | 0, s => (none, s)
  | n + 1, s =>
    match s.step family draw settings data with
    | (.goOn, s) => Search.run family draw settings data n s
    | (.stop, s) => (none, s)
    | (.fault cause, s) => (some cause, s)

/-- The best model with its classification, after the refit if there is one. -/
def settle (family : Family μ δ α) (settings : Settings α) (data : List δ)
    (best : Candidate μ α) : μ × List Bool :=
  if settings.refits then
    refit family data settings.threshold refitRounds best.model best.mask
  else (best.model, best.mask)

/-- The end of a fit whose search has ended: the best model becomes the model of the fitter if
it has enough inliers and the stopping rule accepts it. -/
def conclude (family : Family μ δ α) (settings : Settings α) (state : State μ δ α τ σ)
    (data : List δ) (s : Search μ α τ σ) : Outcome (State μ δ α τ σ) Notice :=
  let state := { state with stopping := s.stopping, sampler := s.sampler }
  let fail (inliers : Nat) : State μ δ α τ σ :=
    { state with
      summary := some (.failure s.iterations settings.threshold (.count inliers)) }
  match s.best with
  | none => ⟨fail 0, .ok false, []⟩
  | some best =>
    if best.inliers < family.minItems then ⟨fail best.inliers, .ok false, []⟩
    else
      let (model, mask) := settle family settings data best
      match Stopping.Policy.accepts s.stopping (marks mask) with
      | .error cause => ⟨state, .error cause, []⟩
      | .ok false => ⟨fail (marks mask), .ok false, []⟩
      | .ok true =>
        let (inliers, outliers) := partition data mask
        let summary : Summary δ α :=
          ⟨true, inliers, outliers, s.iterations, settings.threshold, .count (marks mask)⟩
        ⟨{ state with model, summary := some summary }, .ok true, []⟩

/-- A fit of a model to items. -/
def fit (family : Family μ δ α) (draw : Sampler σ) (settings : Settings α)
    (state : State μ δ α τ σ) (data : List δ) : Outcome (State μ δ α τ σ) Notice :=
  if data.length < family.minItems then
    let summary := Summary.failure 0 settings.threshold .unscored
    ⟨{ state with summary := some summary }, .ok false,
      [.tooFewItems .ransac family.minItems data.length]⟩
  else
    let stopping := Stopping.Policy.start state.stopping data.length family.minItems
    let s : Search μ α τ σ := ⟨state.sampler, state.model, none, stopping, 0⟩
    match s.run family draw settings data settings.maxIterations with
    | (some cause, s) =>
      ⟨{ state with stopping := s.stopping, sampler := s.sampler }, .error cause, []⟩
    | (none, s) => conclude family settings state data s

end Projectivity.Fitting.Ransac
