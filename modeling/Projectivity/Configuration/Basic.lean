import Projectivity.Configuration.Draft
import Projectivity.Fitting.Outcome
import Projectivity.Homography.Refinement.Settings

/-!
# Configurations

What an estimator is built from: the method of fitting with its settings, the
refinement and the seed.  A configuration is read from a record, whose keys have to be
names of settings, and its ranges are checked.
-/

set_option autoImplicit false

namespace Projectivity

/-- All methods of fitting, in the order in which they are listed. -/
def Fitting.Method.all : List Fitting.Method := [ransac, lmeds]

/-- The name of a method of fitting in configurations. -/
def Fitting.Method.name : Fitting.Method → String
  | ransac => "ransac"
  | lmeds => "lmeds"

/-- The settings of an estimator. -/
structure Configuration where
  method : Fitting.Method
  threshold : Value
  maxIterations : Value
  stopping : Stopping.Kind
  parameters : List (Value × Value)
  outlierProportion : Value
  refinement : Refinement.Settings
  seed : Value

namespace Configuration

/-- The choice that a value names. -/
def choose {β : Type} (subject : String) (choices : List β) (name : β → String) (v : Value) :
    Result β :=
  let found := match v with
    | .text s => choices.find? fun c => name c == s
    | _ => none
  match found with
  | some c => .ok c
  | none => .error (.invalidChoice subject v (choices.map name))

/-- The parameters of a stopping rule; null stands for none. -/
def parametersOf : Value → Result (List (Value × Value))
  | .null => .ok []
  | .record entries => .ok entries
  | v => .error (.parametersNotRecord v)

/-- A draft with its names resolved. -/
def ofDraft (d : Draft) : Result Configuration := do
  let method ← choose "method" Fitting.Method.all Fitting.Method.name d.method
  let stopping ← choose "stopping_condition" Stopping.Kind.all Stopping.Kind.name d.stopping
  let mode ← choose "refinement" Refinement.all Refinement.name d.refinement
  let parameters ← parametersOf d.parameters
  let refinement : Refinement.Settings :=
    ⟨mode, d.refinementMaxIterations, d.refinementTolerance⟩
  return ⟨method, d.threshold, d.maxIterations, stopping, parameters, d.outlierProportion,
    refinement, d.seed⟩

/-- A configuration with its names written out. -/
def toDraft (c : Configuration) : Draft where
  method := .text c.method.name
  threshold := c.threshold
  maxIterations := c.maxIterations
  stopping := .text c.stopping.name
  parameters := .record c.parameters
  outlierProportion := c.outlierProportion
  refinement := .text c.refinement.mode.name
  refinementMaxIterations := c.refinement.budget
  refinementTolerance := c.refinement.tolerance
  seed := c.seed

/-- Whether all settings are in their ranges. -/
def validate (c : Configuration) : Result Unit := c.toDraft.validate

/-- The text that a key is, if it is one. -/
def keyText : Value → Result String
  | .text s => .ok s
  | _ => .error .wrongType

/-- Nothing but names of settings may be a key of a record.  Other keys are listed in order. -/
def checkKeys (given : List (Value × Value)) : Result Unit := do
  let unknown := (given.map Prod.fst).filter fun k => !Draft.isName k
  if unknown.isEmpty then return ()
  let names ← unknown.mapM keyText
  throw (.unknownKeys (names.mergeSort fun a b => decide (a ≤ b)))

/-- The configuration that a value gives. -/
def ofValue : Value → Result Configuration
  | .record given => do
    checkKeys given
    let c ← ofDraft (Draft.ofEntries given)
    c.validate
    return c
  | v => .error (.notRecord v)

/-- A configuration as a record, from which it can be read again. -/
def toValue (c : Configuration) : Value := c.toDraft.toValue

/-- The configuration in which every setting has its default: consensus with an adaptive number
of iterations, and a symmetric refinement. -/
def default : Configuration where
  method := .ransac
  threshold := .float (Scalar.decimal 4 0)
  maxIterations := .int 2000
  stopping := .adaptive
  parameters := []
  outlierProportion := .float (Scalar.decimal 4 1)
  refinement := {}
  seed := .null

/-- Whether two configurations have equal settings; numbers are compared by what they denote. -/
def same (c d : Configuration) : Bool := c.toValue.same d.toValue

end Configuration

end Projectivity
