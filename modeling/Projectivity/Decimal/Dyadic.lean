/-!
# Dyadic fractions

A finite binary floating-point number is a signed integer times a power of two.
`Dyadic.ofFloat?` reads that fraction off the bits; the decimal formats work on
it in exact arithmetic.
-/

set_option autoImplicit false

namespace Projectivity.Decimal

/-- The magnitude `mantissa * 2 ^ exponent` together with a sign. -/
structure Dyadic where
  negative : Bool
  mantissa : Nat
  exponent : Int
deriving DecidableEq

namespace Dyadic

/-- The fraction that a finite double stands for, and `none` for the others. -/
def ofFloat? (x : Float) : Option Dyadic :=
  let bits : Nat := x.toBits.toNat
  let negative := bits / Nat.pow 2 63 == 1
  let field : Nat := bits / Nat.pow 2 52 % Nat.pow 2 11
  let fraction : Nat := bits % Nat.pow 2 52
  if field == 2047 then none
  else if field == 0 then some ⟨negative, fraction, -1074⟩
  else some ⟨negative, Nat.pow 2 52 + fraction, (field : Int) - 1075⟩

/-- The numerator of the magnitude over `denominator`. -/
def numerator (d : Dyadic) : Nat := d.mantissa * Nat.pow 2 d.exponent.toNat

/-- A power of two under which the magnitude is a whole number of parts. -/
def denominator (d : Dyadic) : Nat := Nat.pow 2 (-d.exponent).toNat

/-- The numerator with the sign. -/
def signedNumerator (d : Dyadic) : Int :=
  if d.negative then -(d.numerator : Int) else d.numerator

/-- The integer that remains when the fractional part is dropped. -/
def truncate (d : Dyadic) : Int :=
  let magnitude : Int := ((d.numerator / d.denominator : Nat) : Int)
  if d.negative then -magnitude else magnitude

/-- Whether the number is the given integer. -/
def isInt (d : Dyadic) (n : Int) : Bool := d.signedNumerator == n * d.denominator

/-- A denominator is positive. -/
theorem denominator_pos (d : Dyadic) : 0 < d.denominator := Nat.two_pow_pos _

end Dyadic

/-- The quotient `num / den` rounded to the nearest integer, a half going to the even one. -/
def roundHalfEven (num den : Nat) : Nat :=
  let q := num / den
  let twice := 2 * (num % den)
  if twice < den then q
  else if den < twice then q + 1
  else if q % 2 == 0 then q else q + 1

/-- The decimal exponent of a positive fraction: the `p` with
`10 ^ p ≤ num / den < 10 ^ (p + 1)`. -/
def decimalExponent (num den : Nat) : Int :=
  let p : Int := ((Nat.toDigits 10 num).length : Int) - ((Nat.toDigits 10 den).length : Int)
  if den * Nat.pow 10 p.toNat ≤ num * Nat.pow 10 (-p).toNat then p else p - 1

end Projectivity.Decimal
