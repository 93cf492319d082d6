import Projectivity.Scalar.Double.Rounding

/-!
# The logarithm of one plus a number

The logarithm is a multiple of `log 2` and the logarithm of a number near one, and
both come from the series of the inverse hyperbolic tangent.  The series is summed
in fixed point with 192 binary places and rounded once at the end.
-/

set_option autoImplicit false

namespace Projectivity.Double

namespace Logarithm

/-- The number of binary places of the fixed-point numbers. -/
def places : Nat := 192

/-- The terms `power / k, power * square / (k + 2), …` of the series, added up.  Sixty terms
suffice for arguments of at most one third. -/
def series (square : Nat) : Nat → Nat → Nat → Nat
  | 0, _, _ => 0
  | count + 1, power, k =>
    power / k + series square count (power * square / Nat.pow 2 places) (k + 2)

/-- Twice the inverse hyperbolic tangent of `num / den`, in fixed point. -/
def twiceArtanh (num den : Nat) : Nat :=
  let z := num * Nat.pow 2 places / den
  2 * series (z * z / Nat.pow 2 places) 64 z 1

/-- The logarithm of two, in fixed point. -/
def two : Nat := twiceArtanh 1 3

/-- The logarithm of the positive fraction `num / den`, in fixed point: the fraction is a power
of two times a number between `3 / 4` and `3 / 2`. -/
def ofFraction (num den : Nat) : Int :=
  let e : Int := (num.log2 : Int) - den.log2
  let e := if 2 * (den * Nat.pow 2 e.toNat) ≤ 2 * (num * Nat.pow 2 (-e).toNat) then e else e - 1
  let scaledNum := num * Nat.pow 2 (-e).toNat
  let scaledDen := den * Nat.pow 2 e.toNat
  let (e, scaledDen) :=
    if 3 * scaledDen < 2 * scaledNum then (e + 1, 2 * scaledDen) else (e, scaledDen)
  let rest : Int :=
    if scaledDen ≤ scaledNum then
      (twiceArtanh (scaledNum - scaledDen) (scaledNum + scaledDen) : Nat)
    else -((twiceArtanh (scaledDen - scaledNum) (scaledNum + scaledDen) : Nat) : Int)
  e * two + rest

end Logarithm

/-- The natural logarithm of one plus a number.  For numbers below `2 ^ -60` it is the number
itself to the last place. -/
def log1p (x : Float) : Float :=
  match Decimal.Dyadic.ofFloat? x with
  | none => if 0 < x then x else undefined
  | some d =>
    if d.exponent + d.mantissa.log2 < -60 then x
    else
      let sum := (d.denominator : Int) + d.signedNumerator
      if sum < 0 then undefined
      else if sum == 0 then -infinity
      else
        let log := Logarithm.ofFraction sum.toNat d.denominator
        nearest (decide (log < 0)) log.natAbs (-(Logarithm.places : Int))

end Projectivity.Double
