import Projectivity.Extended
import Projectivity.Fault

/-!
# Families of models

The fitters of this library know a model only through a family: how many items
determine a model, how a model is estimated from items, and how far an item is from
a model.
-/

set_option autoImplicit false

namespace Projectivity

/-- Models `μ` that are estimated from items `δ`. -/
structure Family (μ δ α : Type) where
  /-- The least number of items that determine a model. -/
  minItems : Nat
  /-- The model estimated from items; a family may start from the model that is there.  There is
  none for degenerate items. -/
  estimate : μ → List δ → Option μ
  /-- The distance of an item from a model. -/
  residual : μ → δ → Extended α

/-- A source of samples: `draw state available size` yields the positions of `size` items out of
`available` ones, and the next state. -/
abbrev Sampler (σ : Type) := σ → (available size : Nat) → Result (List Nat) × σ

namespace Fitting

variable {μ δ α σ : Type}

/-- The items whose mark is set and the items whose mark is not set, in order. -/
def partition (data : List δ) (mask : List Bool) : List δ × List δ :=
  let marked := data.zip mask
  ((marked.filter fun p => p.2).map Prod.fst, (marked.filter fun p => !p.2).map Prod.fst)

/-- The marks of the items within a threshold of a model. -/
def classify [Scalar α] (family : Family μ δ α) (m : μ) (data : List δ) (threshold : Extended α) :
    List Bool :=
  data.map fun d => (family.residual m d).le threshold

/-- The number of marks that are set. -/
def marks (mask : List Bool) : Nat := mask.count true

/-- The items at the given positions. -/
def pick (data : List δ) (positions : List Nat) : Result (List δ) :=
  positions.mapM fun i =>
    match data[i]? with
    | some d => .ok d
    | none => .error .outOfBounds

/-- A model estimated from a random sample of least size.  Degenerate samples are drawn again, up
to the given number of samples in all. -/
def estimateFromSample (family : Family μ δ α) (draw : Sampler σ) (data : List δ) (m : μ) :
    Nat → σ → Result (Option μ) × σ
  | 0, s => (.ok none, s)
  | tries + 1, s =>
    match draw s data.length family.minItems with
    | (.error fault, s) => (.error fault, s)
    | (.ok positions, s) =>
      match pick data positions with
      | .error fault => (.error fault, s)
      | .ok sample =>
        match family.estimate m sample with
        | some found => (.ok (some found), s)
        | none => estimateFromSample family draw data m tries s

end Fitting

end Projectivity
