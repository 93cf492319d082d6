import Projectivity.Decimal.Dyadic

/-!
# Scientific notation

One digit, a point, a fixed number of further digits and a decimal exponent of at
least two digits.  The digits are those of the exact value, a half going to the
even neighbour.
-/

set_option autoImplicit false

namespace Projectivity.Decimal.Scientific

/-- A decimal exponent with its sign and at least two digits. -/
def exponentText (p : Int) : String :=
  let digits := toString p.natAbs
  let sign := if p < 0 then "-" else "+"
  "e" ++ sign ++ (if digits.length < 2 then "0" ++ digits else digits)

/-- The first `places + 1` digits of a positive fraction as one integer, with its decimal
exponent. -/
def digits (places : Nat) (num den : Nat) : Nat × Int :=
  let p := decimalExponent num den
  let shift := (places : Int) - p
  let q := roundHalfEven (num * Nat.pow 10 shift.toNat) (den * Nat.pow 10 (-shift).toNat)
  if q == Nat.pow 10 (places + 1) then (Nat.pow 10 places, p + 1) else (q, p)

/-- A number with `places` digits after the point. -/
def render (places : Nat) (x : Float) : String :=
  match Dyadic.ofFloat? x with
  | none => if x.isNaN then "nan" else if x < 0 then "-inf" else "inf"
  | some d =>
    let sign := if d.negative then "-" else ""
    let (q, p) := if d.mantissa == 0 then (0, 0) else digits places d.numerator d.denominator
    let text := toString q
    let text := String.ofList (List.replicate (places + 1 - text.length) '0') ++ text
    let tail := (text.drop 1).toString
    sign ++ (text.take 1).toString ++ (if places == 0 then "" else "." ++ tail) ++ exponentText p

end Projectivity.Decimal.Scientific
