import Projectivity.Fitting.Iterations

/-!
# Stopping rules

A stopping rule decides when a search may end before its last iteration, and whether
the best model found is acceptable.  A rule has to be set up for the number of items
and the sample size before it decides anything.
-/

set_option autoImplicit false

namespace Projectivity

/-- What a search for consensus asks of a policy by which it ends.  The rules below are policies,
and a search takes any other policy as well. -/
class Stopping.Policy (τ : Type) where
  /-- The policy set up for a number of items and a sample size. -/
  start : τ → (items sampleSize : Int) → τ
  /-- Whether a search with a best number of inliers may end after a number of iterations. -/
  shouldStop : τ → (inliers iteration : Int) → Result Bool × τ
  /-- Whether a model with a number of inliers is acceptable. -/
  accepts : τ → (inliers : Int) → Result Bool

/-- The rules by which a search ends. -/
inductive Stopping.Rule (α : Type) where
  /-- Never early. -/
  | bestFit
  /-- As soon as a number of inliers is found. -/
  | count (limit : Int)
  /-- As soon as a part of the items are inliers. -/
  | share (percentage : α)
  /-- As soon as a sample of inliers has been drawn with a given confidence. -/
  | adaptive (confidence : α)

/-- What a rule is set up for, and what it remembers. -/
structure Stopping.Setup where
  items : Int
  sampleSize : Int
  /-- The number of inliers that a rule asks for, which is at least the sample size. -/
  limit : Int
  /-- The number of inliers for which the required iterations were computed last. -/
  lastInliers : Int
  required : Int

/-- A stopping rule, set up or not. -/
structure Stopping (α : Type) where
  rule : Stopping.Rule α
  setup : Option Stopping.Setup

namespace Stopping

variable {α : Type} [Scalar α]

/-- A rule that is not set up. -/
def ofRule (rule : Rule α) : Stopping α := ⟨rule, none⟩

/-- The number of inliers that a rule asks for among a number of items. -/
def Rule.limitFor (rule : Rule α) (items : Int) : Int :=
  match rule with
  | .bestFit | .adaptive _ => 1
  | .count limit => limit
  | .share percentage => max 1 (Scalar.roundEven (percentage * Scalar.ofInt items))

/-- A rule set up for a number of items and a sample size; what it remembered is gone. -/
def start (s : Stopping α) (items sampleSize : Int) : Stopping α :=
  let setup : Setup :=
    { items, sampleSize, limit := s.rule.limitFor items, lastInliers := -1,
      required := Fitting.iterationCap }
  { s with setup := some setup }

/-- The number of inliers that a rule asks for, if it asks for one. -/
def limit? (s : Stopping α) : Option Int :=
  match s.rule with
  | .count limit => some limit
  | .share _ => some (match s.setup with
    | some setup => setup.limit
    | none => 1)
  | _ => none

/-- The number of iterations that a rule requires at present, if it reckons with one. -/
def required? (s : Stopping α) : Option Int :=
  match s.rule with
  | .adaptive _ => s.setup.map Setup.required
  | _ => none

/-- The number of inliers at which a search ends. -/
def Setup.effectiveLimit (setup : Setup) : Int := max setup.limit setup.sampleSize

/-- The iterations that are required with a number of inliers, and the memory of that number. -/
def Setup.update (setup : Setup) (confidence : α) (inliers : Int) : Result Unit × Setup :=
  if inliers ≠ setup.lastInliers ∧ setup.sampleSize ≤ inliers then
    let setup := { setup with lastInliers := inliers }
    match Fitting.iterationsFor confidence inliers setup.items setup.sampleSize with
    | .ok required => (.ok (), { setup with required })
    | .error fault => (.error fault, setup)
  else (.ok (), setup)

/-- Whether a search with a best number of inliers may end after a number of iterations. -/
def shouldStop (s : Stopping α) (inliers iteration : Int) : Result Bool × Stopping α :=
  match s.rule, s.setup with
  | .bestFit, _ => (.ok false, s)
  | _, none => (.error .notReady, s)
  | .adaptive confidence, some setup =>
    let (outcome, setup) := setup.update confidence inliers
    (outcome.map fun _ => decide (setup.required ≤ iteration), { s with setup := some setup })
  | _, some setup => (.ok (decide (setup.effectiveLimit ≤ inliers)), s)

/-- Whether a model with a number of inliers is acceptable. -/
def accepts (s : Stopping α) (inliers : Int) : Result Bool :=
  match s.rule, s.setup with
  | _, none => .error .notReady
  | .bestFit, some setup | .adaptive _, some setup => .ok (decide (setup.sampleSize ≤ inliers))
  | _, some setup => .ok (decide (setup.effectiveLimit ≤ inliers))

/-- A stopping rule is a policy. -/
instance : Policy (Stopping α) := ⟨start, shouldStop, accepts⟩

end Stopping

end Projectivity
