import Projectivity.Scalar

/-!
# Extended scalars

Squared errors and their bounds.  A point that is mapped to infinity has an infinite
error, which is above every number and equal to itself.
-/

set_option autoImplicit false

namespace Projectivity

/-- A scalar or the value above all scalars. -/
inductive Extended (α : Type) where
  | finite (value : α)
  | infinite

namespace Extended

variable {α : Type} [Scalar α]

/-- A scalar as an extended one. -/
def ofScalar (x : α) : Extended α := if Scalar.isAbove x then infinite else finite x

/-- A scalar that counts as infinite unless it is a finite number. -/
def bounded (x : α) : Extended α := if Scalar.isFinite x then finite x else infinite

/-- The extended value zero. -/
def zero : Extended α := finite 0

/-- Whether a value can be compared with itself. -/
def isOrdered : Extended α → Bool
  | finite a => decide (a ≤ a)
  | infinite => true

/-- Whether a value is a finite number. -/
def isFinite : Extended α → Bool
  | finite a => Scalar.isFinite a
  | infinite => false

/-- Whether the first value is at most the second. -/
def le : Extended α → Extended α → Bool
  | finite a, finite b => decide (a ≤ b)
  | finite a, infinite => decide (a ≤ a)
  | infinite, finite _ => false
  | infinite, infinite => true

/-- Whether the first value is less than the second. -/
def lt : Extended α → Extended α → Bool
  | finite a, finite b => decide (a < b)
  | finite a, infinite => decide (a ≤ a)
  | infinite, _ => false

/-- The sum of two values. -/
def add : Extended α → Extended α → Extended α
  | finite a, finite b => ofScalar (a + b)
  | _, _ => infinite

/-- The sum of a list of values. -/
def sum (values : List (Extended α)) : Extended α := values.foldl add zero

/-- Half of a value. -/
def half : Extended α → Extended α
  | finite a => finite (a / ((2 : Nat) : α))
  | infinite => infinite

/-- The median of a list: its middle value in ascending order, or the mean of the two middle
values.  An empty list and a list with a value that cannot be compared have none. -/
def median? (values : List (Extended α)) : Option (Extended α) :=
  if values.all isOrdered then
    let sorted := values.mergeSort le
    let middle := sorted.length / 2
    if sorted.length % 2 == 1 then sorted[middle]?
    else match sorted[middle - 1]?, sorted[middle]? with
      | some a, some b => some (half (add a b))
      | _, _ => none
  else none

end Extended

end Projectivity
