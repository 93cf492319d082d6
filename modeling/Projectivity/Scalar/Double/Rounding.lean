import Projectivity.Decimal.Dyadic

/-!
# Rounding to doubles and to integers

The nearest double of an exact binary fraction, and the integers next to a double.
Both are computed in exact arithmetic.
-/

set_option autoImplicit false

namespace Projectivity.Double

/-- The value of no operation. -/
def undefined : Float := 0 / 0

/-- The value above all numbers. -/
def infinity : Float := 1 / 0

/-- The bits of the double nearest to `mantissa * 2 ^ exponent`, a half going to the even
neighbour.  Below the least normal number the bits count steps of `2 ^ -1074`; above it the
exponent field stands in front of 53 leading digits, and a carry out of them moves into it. -/
def nearestBits (mantissa : Nat) (exponent : Int) : Nat :=
  let top : Int := exponent + mantissa.log2
  let step : Int := if top < -1022 then -1074 else top - 52
  let shift := exponent - step
  let count := Decimal.roundHalfEven (mantissa * Nat.pow 2 shift.toNat) (Nat.pow 2 (-shift).toNat)
  if top < -1022 then count else (top + 1022).toNat * Nat.pow 2 52 + count

/-- The double nearest to `± mantissa * 2 ^ exponent`.  Exponents far outside the range of
doubles are answered without computing the power. -/
def nearest (negative : Bool) (mantissa : Nat) (exponent : Int) : Float :=
  let top : Int := exponent + mantissa.log2
  let magnitude :=
    if mantissa == 0 || top < -1080 then 0
    else if 1023 < top then infinity
    else Float.ofBits (UInt64.ofNat (nearestBits mantissa exponent))
  if negative then -magnitude else magnitude

/-- The integer below a fraction, and whether something of the fraction is left over. -/
def floorPart (x : Float) : Int × Bool :=
  match Decimal.Dyadic.ofFloat? x with
  | some d =>
    let q := d.signedNumerator / (d.denominator : Int)
    (q, q * d.denominator != d.signedNumerator)
  | none => (0, false)

/-- The least integer not below a finite number. -/
def ceil (x : Float) : Int :=
  let (q, more) := floorPart x
  if more then q + 1 else q

/-- The integer nearest to a finite number, a half going to the even neighbour. -/
def roundEven (x : Float) : Int :=
  match Decimal.Dyadic.ofFloat? x with
  | some d =>
    let magnitude : Int := (Decimal.roundHalfEven d.numerator d.denominator : Nat)
    if d.negative then -magnitude else magnitude
  | none => 0

end Projectivity.Double
