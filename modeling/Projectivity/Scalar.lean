/-!
# Scalars

The geometry and the fitting rules are written once, over any type with the
operations of `Scalar`.  `Float` is the instance that programs run with; the
arithmetic of another instance may be exact.  A comparison is a decidable
proposition, so a rule reads the same over every instance.
-/

set_option autoImplicit false

namespace Projectivity

/-- The numbers that coordinates, residuals and probabilities are made of. -/
class Scalar (α : Type) extends Zero α, One α, NatCast α, Add α, Sub α, Mul α, Div α, Neg α,
    LE α, LT α where
  leDecidable : ∀ a b : α, Decidable (a ≤ b)
  ltDecidable : ∀ a b : α, Decidable (a < b)
  /-- The absolute value. -/
  abs : α → α
  /-- The square root. -/
  sqrt : α → α
  /-- The natural logarithm of one plus the argument. -/
  log1p : α → α
  /-- A power with an integer exponent. -/
  pow : α → Int → α
  /-- The least integer that is not below the argument, which must be a finite number. -/
  ceil : α → Int
  /-- The integer nearest to the argument, a half going to the even neighbour. -/
  roundEven : α → Int
  /-- `decimal m k` is the number nearest to `m / 10 ^ k`. -/
  decimal : Nat → Nat → α
  /-- Whether the argument is a number, and neither undefined nor beyond every number. -/
  isFinite : α → Bool
  /-- Whether the argument is the value above all numbers. -/
  isAbove : α → Bool

namespace Scalar

variable {α : Type} [Scalar α]

/-- The order of scalars can be decided. -/
instance (a b : α) : Decidable (a ≤ b) := Scalar.leDecidable a b

/-- The strict order of scalars can be decided. -/
instance (a b : α) : Decidable (a < b) := Scalar.ltDecidable a b

/-- An integer as a scalar. -/
def ofInt : Int → α
  | .ofNat n => (n : α)
  | .negSucc n => -((n + 1 : Nat) : α)

/-- The larger of two values, the first one when neither is larger. -/
def larger (a b : α) : α := if a < b then b else a

/-- The smaller of two values, the first one when neither is smaller. -/
def smaller (a b : α) : α := if b < a then b else a

/-- The square of a value. -/
def square (a : α) : α := a * a

/-- The sum of the products of matching entries. -/
def dot (a b : List α) : α := (List.zipWith (· * ·) a b).sum

/-- The Euclidean length of a list of components. -/
def norm (a : List α) : α := sqrt (a.map square).sum

/-- The arithmetic mean of a list. -/
def mean (a : List α) : α := a.sum / (a.length : α)

/-- The largest absolute value in a list, and zero for the empty list. -/
def largestAbs (a : List α) : α := a.foldl (fun m x => larger m (abs x)) 0

end Scalar

end Projectivity
