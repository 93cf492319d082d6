import Projectivity.Value.Basic

/-!
# Faults

The reasons for which an operation is refused.  `Fault.kind` sorts them, and
`Fault.message` gives the text of those that explain themselves.
-/

set_option autoImplicit false

namespace Projectivity

/-- The quantities that are checked against a range. -/
inductive Quantity where
  | threshold
  | maxIterations
  | maxSampleRetries
  | outlierProportion
  | fitConfidence
  | inlierMultiplier
  | minScale
  | refinementMaxIterations
  | refinementTolerance
  | limit
  | percentage
  | stopConfidence
  | sampleSize
deriving DecidableEq

/-- The range that a quantity has to lie in, as text. -/
def Quantity.requirement : Quantity → String
  | threshold => "threshold must be non-negative"
  | maxIterations => "max_iterations must be positive"
  | maxSampleRetries => "max_sample_retries must be positive"
  | outlierProportion => "outlier_proportion must be in range [0.0, 1.0)"
  | fitConfidence => "confidence must be in range (0.0, 1.0)"
  | inlierMultiplier => "inlier_multiplier must be positive"
  | minScale => "min_scale must be non-negative"
  | refinementMaxIterations => "refinement_max_iterations must be positive"
  | refinementTolerance => "refinement_tolerance must be positive"
  | limit => "limit must be positive"
  | percentage => "percentage must be in (0, 1]"
  | stopConfidence => "confidence must be in (0, 1)"
  | sampleSize => "sample_size must be >= 1"

/-- The sorts of faults that a caller tells apart. -/
inductive Fault.Kind where
  | badValue
  | wrongType
  | degenerate
  | fileMissing
  | fileUnwritable
  | notReady
  | divisionByZero
  | overflow
  | outOfBounds
deriving DecidableEq

/-- Why an operation was refused. -/
inductive Fault where
  /-- Something that is not two coordinates stands where a point is expected. -/
  | malformedPoint (got : Value)
  /-- Something that is not two parts stands where a correspondence is expected. -/
  | malformedPair (got : Value)
  /-- A quantity lies outside its range. -/
  | outOfRange (quantity : Quantity) (got : Value)
  /-- A name is none of the choices. -/
  | invalidChoice (subject : String) (got : Value) (choices : List String)
  /-- A record has keys that mean nothing. -/
  | unknownKeys (keys : List String)
  /-- A configuration is not a record. -/
  | notRecord (got : Value)
  /-- The parameters of a stopping rule are not a record. -/
  | parametersNotRecord (got : Value)
  /-- A stopping rule lacks a parameter. -/
  | missingParameter (rule parameter : String)
  /-- More items are asked for than there are. -/
  | sampleTooLarge (size available : Int)
  /-- Two sets of points do not have the same shape of rows of two. -/
  | unequalShapes (source destination : List Nat)
  /-- A transform is not three by three. -/
  | notThreeByThree (shape : List Nat)
  /-- A transform has an entry that is not a finite number. -/
  | nonFiniteEntry
  /-- A singular transform has no inverse. -/
  | singularTransform
  /-- A point lies on the line that goes to infinity. -/
  | pointAtInfinity (x y w : Float)
  /-- A model of another family was to be assigned. -/
  | foreignModel (name : String)
  /-- There is no configuration file. -/
  | noSuchFile (path : String)
  /-- A configuration file is not well formed. -/
  | unreadableFile
  /-- A configuration file has no section for this library. -/
  | missingSection (path : String)
  /-- A configuration file cannot be written. -/
  | unwritableFile
  /-- A value is of the right type but has no meaning here. -/
  | meaningless
  /-- A value is of the wrong type. -/
  | wrongType
  /-- Something is used before it is set up. -/
  | notReady
  /-- A division by zero. -/
  | divisionByZero
  /-- A number is beyond the range of its type. -/
  | overflow
  /-- A position is outside a list. -/
  | outOfBounds

namespace Fault

/-- The shape of a table of numbers as text. -/
def shapeText : List Nat → String
  | [n] => s!"({n},)"
  | shape => "(" ++ String.intercalate ", " (shape.map toString) ++ ")"

/-- The name of the section of a configuration file that belongs to this library. -/
def sectionName : String := "homography_estimation"

/-- The name of a kind of data as messages show it. -/
def kindText (v : Value) : String := "<class '" ++ v.kindName ++ "'>"

/-- The sort that a fault belongs to. -/
def kind : Fault → Kind
  | wrongType | foreignModel _ => .wrongType
  | singularTransform | pointAtInfinity .. => .degenerate
  | noSuchFile _ => .fileMissing
  | unwritableFile => .fileUnwritable
  | notReady => .notReady
  | divisionByZero => .divisionByZero
  | overflow => .overflow
  | outOfBounds => .outOfBounds
  | _ => .badValue

/-- The text of a fault that explains itself. -/
def message : Fault → Option String
  | malformedPoint v => some ("Expected a 2D point, got " ++ v.render)
  | malformedPair v => some ("Expected a (source, destination) pair, got " ++ v.render)
  | outOfRange q v => some (q.requirement ++ ", got " ++ v.display)
  | invalidChoice subject v choices =>
    some ("Invalid " ++ subject ++ " '" ++ v.display ++ "'. Must be one of: " ++
      String.intercalate ", " choices)
  | unknownKeys keys => some ("Unknown configuration keys: " ++ String.intercalate ", " keys)
  | notRecord v => some ("Configuration must be a dictionary, got " ++ kindText v)
  | parametersNotRecord v =>
    some ("'stopping_params' must be a dictionary, got " ++ kindText v)
  | missingParameter rule parameter =>
    some (rule ++ " stopping condition requires '" ++ parameter ++ "'")
  | sampleTooLarge size available => some s!"Cannot sample {size} items from {available}"
  | unequalShapes a b =>
    some ("src and dst must be (N,2) arrays of equal shape, got " ++ shapeText a ++ " vs " ++
      shapeText b)
  | notThreeByThree shape =>
    some ("Homography matrix must be 3x3, got shape " ++ shapeText shape)
  | nonFiniteEntry => some "Homography matrix contains non-finite values"
  | singularTransform => some "Homography is singular and cannot be inverted"
  | pointAtInfinity x y w =>
    some ("Point (" ++ Value.floatText x ++ ", " ++ Value.floatText y ++
      ") maps to infinity (w=" ++ Decimal.Scientific.render 3 w ++ ")")
  | foreignModel name => some ("Cannot assign " ++ name ++ " to HomographyModel")
  | noSuchFile path =>
    some ("Configuration file not found: " ++ path ++
      "\nPlease create a configuration file or use get_default_config()")
  | unreadableFile => some "Failed to parse YAML configuration file"
  | missingSection path =>
    some ("Configuration file missing '" ++ sectionName ++ "' section: " ++ path ++
      "\nExpected structure: " ++ sectionName ++ ":\n  method: ...\n  ...")
  | _ => none

end Fault

/-- A result or the reason why there is none. -/
abbrev Result (β : Type) := Except Fault β

/-- What a result is as an option tells which result it is. -/
theorem Result.toOption_eq_some {β : Type} {x : Result β} {b : β} :
    x.toOption = some b ↔ x = .ok b := by
  cases x with
  | error cause => simp [Except.toOption]
  | ok c => simp [Except.toOption]

/-- Two steps give a result exactly if the first gives one from which the second gives it. -/
theorem Result.bind_eq_ok {β γ : Type} {x : Result β} {f : β → Result γ} {c : γ} :
    (x >>= f) = .ok c ↔ ∃ b, x = .ok b ∧ f b = .ok c := by
  cases x with
  | error cause =>
    constructor
    · intro h
      cases h
    · rintro ⟨b, h, -⟩
      cases h
  | ok b =>
    constructor
    · exact fun h => ⟨b, rfl, h⟩
    · rintro ⟨_, ⟨⟩, h⟩
      exact h

end Projectivity
