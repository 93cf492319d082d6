import Projectivity.Scalar.Double.Rounding

/-!
# Integer powers of doubles

Powers by repeated squaring on binary fractions of 256 digits, rounded once at the
end, so that the result is the nearest double but for an error far below its last
place.
-/

set_option autoImplicit false

namespace Projectivity.Double

/-- The binary fraction `mantissa * 2 ^ exponent`. -/
structure Fraction where
  mantissa : Nat
  exponent : Int

namespace Fraction

/-- The number of leading binary digits that are kept. -/
def digits : Nat := 256

/-- The fraction cut to its leading digits. -/
def cut (a : Fraction) : Fraction :=
  let excess := a.mantissa.log2 + 1 - digits
  ⟨a.mantissa / Nat.pow 2 excess, a.exponent + excess⟩

/-- The product of two fractions, cut to its leading digits. -/
def mul (a b : Fraction) : Fraction :=
  cut ⟨a.mantissa * b.mantissa, a.exponent + b.exponent⟩

/-- `power base n fuel` is `base ^ n` for `n < 2 ^ fuel`. -/
def power (base : Fraction) : Nat → Nat → Fraction
  | _, 0 => ⟨1, 0⟩
  | n, fuel + 1 =>
    if n == 0 then ⟨1, 0⟩
    else
      let half := power (mul base base) (n / 2) fuel
      if n % 2 == 1 then mul base half else half

/-- The reciprocal of a positive fraction, cut to its leading digits. -/
def inverse (a : Fraction) : Fraction :=
  let places := a.mantissa.log2 + 1 + digits
  cut ⟨Nat.pow 2 places / a.mantissa, -a.exponent - places⟩

end Fraction

/-- The power of a double with an integer exponent.  The power of zero with a negative exponent
is infinite. -/
def pow (x : Float) (n : Int) : Float :=
  if n == 0 then 1
  else if x.isNaN then x
  else
    let negative := x < 0 && n % 2 != 0
    match Decimal.Dyadic.ofFloat? x with
    | none => if n < 0 then 0 else if negative then -infinity else infinity
    | some d =>
      if d.mantissa == 0 then if n < 0 then infinity else 0
      else
        let power := Fraction.power ⟨d.mantissa, d.exponent⟩ n.natAbs (n.natAbs.log2 + 1)
        let power := if n < 0 then power.inverse else power
        nearest negative power.mantissa power.exponent

end Projectivity.Double
