import Projectivity.Decimal.Scientific

/-!
# Shortest decimals

The text of a number is the shortest decimal that reads back as that number, and
of those the nearest.  `Layout` says when an exponent is written.
-/

set_option autoImplicit false

namespace Projectivity.Decimal.Shortest

/-- How the digits of a shortest decimal are laid out. -/
structure Layout where
  /-- The least decimal exponent that is written positionally. -/
  least : Int
  /-- The first decimal exponent beyond the positional ones. -/
  beyond : Int
  /-- Whether a mantissa of one digit keeps a point and a zero before an exponent. -/
  pointBeforeExponent : Bool

/-- The ends of an interval around a fraction, in quarters of a step of its last binary place. -/
structure Interval where
  lower : Nat
  upper : Nat
  closed : Bool

/-- The interval of numbers that are read as the given fraction. -/
def Interval.ofDyadic (d : Dyadic) : Interval :=
  let four := 4 * d.mantissa
  let below := if d.mantissa == Nat.pow 2 52 && decide (-1074 < d.exponent) then 1 else 2
  ⟨four - below, four + 2, d.mantissa % 2 == 0⟩

/-- Whether `num / den`, measured in quarter steps, lies in the interval. -/
def Interval.contains (i : Interval) (num den : Nat) : Bool :=
  if i.closed then decide (i.lower * den ≤ num) && decide (num ≤ i.upper * den)
  else decide (i.lower * den < num) && decide (num < i.upper * den)

/-- The decimal of `count` digits that reads back as the fraction, if there is one. -/
def ofCount? (d : Dyadic) (p : Int) (count : Nat) : Option Nat :=
  let shift := (count : Int) - 1 - p
  let scaleUp := Nat.pow 10 shift.toNat
  let scaleDown := Nat.pow 10 (-shift).toNat
  let num := d.numerator * scaleUp
  let den := d.denominator * scaleDown
  let q := num / den
  let interval := Interval.ofDyadic d
  let quarters (c : Nat) : Bool :=
    let e := d.exponent - 2
    interval.contains (c * scaleDown * Nat.pow 2 (-e).toNat) (scaleUp * Nat.pow 2 e.toNat)
  let lowOk := quarters q
  let highOk := quarters (q + 1)
  if lowOk && highOk then some (roundHalfEven num den)
  else if lowOk then some q
  else if highOk then some (q + 1)
  else none

/-- The digits of the shortest decimal, without trailing zeros, and its decimal exponent.
Seventeen digits always read back, so the default is never taken. -/
def digits (d : Dyadic) : String × Int :=
  let p := decimalExponent d.numerator d.denominator
  let found := (List.range 17).findSome? fun k => (ofCount? d p (k + 1)).map fun q => (k + 1, q)
  let (count, q) := found.getD (1, 0)
  let text := toString q
  let kept := (text.toList.reverse.dropWhile (· == '0')).reverse
  (String.ofList kept, if text.length == count + 1 then p + 1 else p)

/-- A positive number as text under a layout. -/
def renderDigits (layout : Layout) (digits : String) (p : Int) : String :=
  let cs := digits.toList
  if p < layout.least || layout.beyond ≤ p then
    let tail := String.ofList (cs.drop 1)
    let head := String.ofList (cs.take 1)
    let point :=
      if tail.isEmpty then (if layout.pointBeforeExponent then ".0" else "") else "." ++ tail
    head ++ point ++ Scientific.exponentText p
  else if p < 0 then
    "0." ++ String.ofList (List.replicate ((-p).toNat - 1) '0') ++ digits
  else
    let whole := p.toNat + 1
    let head := cs.take whole ++ List.replicate (whole - cs.length) '0'
    let tail := cs.drop whole
    String.ofList head ++ "." ++ (if tail.isEmpty then "0" else String.ofList tail)

/-- A finite number as text under a layout, and `none` for the others. -/
def render? (layout : Layout) (x : Float) : Option String := do
  let d ← Dyadic.ofFloat? x
  let sign := if d.negative then "-" else ""
  if d.mantissa == 0 then return sign ++ "0.0"
  let (text, p) := digits d
  return sign ++ renderDigits layout text p

end Projectivity.Decimal.Shortest
