import Projectivity.Fitting.Stopping
import Projectivity.Value.Range

/-!
# Kinds of stopping rules

The names under which stopping rules are configured, and the parameters that each of
them takes.  Parameters of another rule are ignored.
-/

set_option autoImplicit false

namespace Projectivity.Stopping

/-- The kinds of stopping rules. -/
inductive Kind where
  | bestFit
  | count
  | share
  | adaptive
deriving DecidableEq

namespace Kind

/-- All kinds, in the order in which they are listed. -/
def all : List Kind := [bestFit, count, share, adaptive]

/-- The name of a kind in configurations. -/
def name : Kind → String
  | bestFit => "best_fit"
  | count => "number_inliers"
  | share => "percentage_inliers"
  | adaptive => "probabilistic"

/-- The kind of a given name. -/
def ofName? (s : String) : Option Kind := all.find? fun k => k.name == s

/-- The kind that a value names.  A value that is not a text names the adaptive kind. -/
def ofValue (subject : String) : Value → Result Kind
  | .text s =>
    match ofName? s with
    | some kind => .ok kind
    | none => .error (.invalidChoice subject (.text s) (all.map name))
  | _ => .ok adaptive

end Kind

/-- The confidence of an adaptive rule where none is given. -/
def defaultConfidence : Float := Scalar.decimal 99 2

/-- The rule that ends a search at a number of inliers. -/
def Rule.ofLimit (v : Value) : Result (Rule Float) := do
  let limit ← Quantity.limit.check v
  return .count (← limit.truncate)

/-- The rule that ends a search at a part of the items. -/
def Rule.ofPercentage (v : Value) : Result (Rule Float) := do
  let percentage ← Quantity.percentage.check v
  return .share (← percentage.toFloat)

/-- The rule that ends a search at a confidence. -/
def Rule.ofConfidence (v : Value) : Result (Rule Float) := do
  let confidence ← Quantity.stopConfidence.check v
  return .adaptive (← confidence.toFloat)

/-- The rule of a kind with the given parameters. -/
def Rule.ofParameters (kind : Kind) (parameters : List (Value × Value)) : Result (Rule Float) :=
  let required (name : String) (build : Value → Result (Rule Float)) : Result (Rule Float) :=
    match Value.field? parameters name with
    | some v => build v
    | none => .error (.missingParameter kind.name name)
  match kind with
  | .bestFit => .ok .bestFit
  | .count => required "limit" ofLimit
  | .share => required "percentage" ofPercentage
  | .adaptive =>
    ofConfidence ((Value.field? parameters "confidence").getD (.float defaultConfidence))

/-- Whether a value can be the name of a parameter; the kind is not a parameter. -/
def isParameterName : Value → Bool
  | .text s => s != "kind"
  | _ => false

/-- The rule of a kind and parameters given as values. -/
def Rule.read (kind parameters : Value) : Result (Rule Float) :=
  match parameters with
  | .record entries =>
    if entries.all fun e => isParameterName e.1 then do
      Rule.ofParameters (← Kind.ofValue "stopping condition" kind) entries
    else .error .wrongType
  | _ => .error .wrongType

/-- The name of a rule with its parameter. -/
def Rule.render : Rule Float → String
  | .bestFit => "BestFitStoppingCondition()"
  | .count limit => "NumberInliersStoppingCondition(limit=" ++ toString limit ++ ")"
  | .share percentage =>
    "PercentageInliersStoppingCondition(percentage=" ++ Value.floatText percentage ++ ")"
  | .adaptive confidence =>
    "ProbabilisticMinInliersStoppingCondition(confidence=" ++ Value.floatText confidence ++ ")"

end Projectivity.Stopping
