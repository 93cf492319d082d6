import Projectivity.Fitting.Stopping.Kind

/-!
# Drafts of configurations

The settings of a configuration before their names have been resolved.  A setting that
is not given has its default.
-/

set_option autoImplicit false

namespace Projectivity.Configuration

/-- Settings as they are given. -/
structure Draft where
  method : Value := .text "ransac"
  threshold : Value := .float (Scalar.decimal 4 0)
  maxIterations : Value := .int 2000
  stopping : Value := .text "probabilistic"
  parameters : Value := .record []
  outlierProportion : Value := .float (Scalar.decimal 4 1)
  refinement : Value := .text "symmetric_transfer"
  refinementMaxIterations : Value := .int 1000
  refinementTolerance : Value := .float (Scalar.decimal 1 10)
  seed : Value := .null

namespace Draft

/-- The settings with their names, in the order in which they are written. -/
def entries (d : Draft) : List (String × Value) :=
  [("method", d.method), ("threshold", d.threshold), ("max_iterations", d.maxIterations),
    ("stopping_condition", d.stopping), ("stopping_params", d.parameters),
    ("outlier_proportion", d.outlierProportion), ("refinement", d.refinement),
    ("refinement_max_iterations", d.refinementMaxIterations),
    ("refinement_tolerance", d.refinementTolerance), ("seed", d.seed)]

/-- The names of all settings. -/
def names : List String := (entries {}).map Prod.fst

/-- The settings as a record. -/
def toValue (d : Draft) : Value := .record (d.entries.map fun e => (.text e.1, e.2))

/-- The settings that a record gives. -/
def ofEntries (given : List (Value × Value)) : Draft :=
  let get (name : String) (default : Value) : Value := (Value.field? given name).getD default
  let d : Draft := {}
  { method := get "method" d.method
    threshold := get "threshold" d.threshold
    maxIterations := get "max_iterations" d.maxIterations
    stopping := get "stopping_condition" d.stopping
    parameters := get "stopping_params" d.parameters
    outlierProportion := get "outlier_proportion" d.outlierProportion
    refinement := get "refinement" d.refinement
    refinementMaxIterations := get "refinement_max_iterations" d.refinementMaxIterations
    refinementTolerance := get "refinement_tolerance" d.refinementTolerance
    seed := get "seed" d.seed }

/-- Whether a key is the name of a setting. -/
def isName : Value → Bool
  | .text s => names.contains s
  | _ => false

/-- The settings that a record gives, all of whose keys have to be names of settings. -/
def ofKnownEntries (given : List (Value × Value)) : Result Draft :=
  if given.all fun e => isName e.1 then .ok (ofEntries given) else .error .wrongType

/-- Whether all settings that are numbers are in their ranges, and the stopping rule has its
parameters.  The faults come in the order of the settings. -/
def validate (d : Draft) : Result Unit := do
  let _ ← Quantity.threshold.check d.threshold
  let _ ← Quantity.maxIterations.check d.maxIterations
  let _ ← Quantity.outlierProportion.check d.outlierProportion
  let _ ← Quantity.refinementMaxIterations.check d.refinementMaxIterations
  let _ ← Quantity.refinementTolerance.check d.refinementTolerance
  let _ ← Stopping.Rule.read d.stopping d.parameters

end Draft

end Projectivity.Configuration
