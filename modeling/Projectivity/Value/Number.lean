import Projectivity.Fault

/-!
# Numbers among values

The numeric reading of values.  Truth values count as zero and one.  Integers are
exact, so a comparison with an integer never rounds.
-/

set_option autoImplicit false

namespace Projectivity

/-- A number as it was given: an integer or a floating-point number. -/
inductive Number where
  | int (n : Int)
  | real (x : Float)

namespace Number

/-- The number as a value. -/
def toValue : Number → Value
  | int n => .int n
  | real x => .float x

/-- How the number compares with an integer, exactly; the undefined number does not compare. -/
def compare? : Number → Int → Option Ordering
  | int n, k => some (compare n k)
  | real x, k =>
    match Decimal.Dyadic.ofFloat? x with
    | some d => some (compare d.signedNumerator (k * d.denominator))
    | none => if x.isNaN then none else some (if x < 0 then .lt else .gt)

/-- Whether the number is less than an integer. -/
def lt (x : Number) (k : Int) : Bool := x.compare? k == some .lt

/-- Whether the number is greater than an integer. -/
def gt (x : Number) (k : Int) : Bool := x.compare? k == some .gt

/-- Whether the number is at most an integer. -/
def le (x : Number) (k : Int) : Bool := x.lt k || x.compare? k == some .eq

/-- Whether the number is at least an integer. -/
def ge (x : Number) (k : Int) : Bool := x.gt k || x.compare? k == some .eq

/-- The nearest double, unless the integer is beyond all doubles. -/
def toFloat : Number → Result Float
  | real x => .ok x
  | int n =>
    let magnitude := Decimal.Numeral.float n.natAbs 0
    if magnitude.isInf then .error .overflow
    else .ok (if n < 0 then -magnitude else magnitude)

/-- The integer that remains when the fractional part is dropped. -/
def truncate : Number → Result Int
  | int n => .ok n
  | real x =>
    match Decimal.Dyadic.ofFloat? x with
    | some d => .ok d.truncate
    | none => .error (if x.isNaN then .meaningless else .overflow)

end Number

namespace Value

/-- The number that a value is, if it is one. -/
def number? : Value → Option Number
  | bool b => some (.int (boolInt b))
  | int n => some (.int n)
  | float x => some (.real x)
  | _ => none

/-- The number that a value is. -/
def number (v : Value) : Result Number :=
  match v.number? with
  | some n => .ok n
  | none => .error .wrongType

/-- A value read as a floating-point number: numbers, and texts that are numerals. -/
def toFloat (v : Value) : Result Float :=
  match v with
  | text s => match Decimal.Numeral.float? s with
    | some x => .ok x
    | none => .error .meaningless
  | v => v.number >>= Number.toFloat

/-- A value read as an integer: numbers without their fractional part, and texts that are
numerals of integers. -/
def toInt (v : Value) : Result Int :=
  match v with
  | text s => match Decimal.Numeral.int? s with
    | some n => .ok n
    | none => .error .meaningless
  | v => v.number >>= Number.truncate

/-- A whole number, given as an integer or as a truth value. -/
def whole (v : Value) : Result Int :=
  match v.number? with
  | some (.int n) => .ok n
  | _ => .error .wrongType

end Value

end Projectivity
