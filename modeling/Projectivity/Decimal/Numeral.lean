import Projectivity.Decimal.Dyadic
import Projectivity.Text.Blank

/-!
# Numerals

Reading decimal text.  A numeral may be surrounded by blanks and may have single
underscores between its digits.
-/

set_option autoImplicit false

namespace Projectivity.Decimal.Numeral

/-- The value of a string of plain digits. -/
def natOfDigits (cs : List Char) : Nat :=
  cs.foldl (fun n c => 10 * n + (c.toNat - '0'.toNat)) 0

/-- The double nearest to `mantissa * 10 ^ exponent`.  Exponents outside the range of doubles
are answered without computing the power. -/
def float (mantissa : Nat) (exponent : Int) : Float :=
  let top : Int := exponent + (Nat.toDigits 10 mantissa).length
  if mantissa == 0 || top < -400 then 0
  else if 400 < top then 1 / 0
  else Float.ofScientific mantissa (decide (exponent < 0)) exponent.natAbs

/-- A sign in front of a text, and the text behind it. -/
def sign : List Char → Bool × List Char
  | '-' :: cs => (true, cs)
  | '+' :: cs => (false, cs)
  | cs => (false, cs)

/-- An exponent part that takes up the whole text; the empty text stands for zero. -/
def exponent? : List Char → Option Int
  | [] => some 0
  | c :: cs =>
    let (negative, digits) := sign cs
    if (c == 'e' || c == 'E') && !digits.isEmpty && digits.all Char.isDigit then
      let n : Int := natOfDigits digits
      some (if negative then -n else n)
    else none

/-- An unsigned decimal that takes up the whole text, as a mantissa and a decimal exponent. -/
def decimal? (cs : List Char) : Option (Nat × Int) := do
  let whole := cs.takeWhile Char.isDigit
  let rest := cs.dropWhile Char.isDigit
  let (fraction, rest) := match rest with
    | '.' :: rest => (rest.takeWhile Char.isDigit, rest.dropWhile Char.isDigit)
    | rest => ([], rest)
  if whole.isEmpty && fraction.isEmpty then none
  else
    let e ← exponent? rest
    some (natOfDigits (whole ++ fraction), e - fraction.length)

/-- The double that a text denotes: a decimal, or one of the names of infinity and of the
undefined value in any case, with an optional sign. -/
def float? (s : String) : Option Float := do
  let cs ← Text.joinDigits? (Text.plainDigits (Text.trimBlanks s.toList))
  let (negative, cs) := sign cs
  let name := String.ofList (cs.map Char.toLower)
  let magnitude ←
    if name == "inf" || name == "infinity" then some (1 / 0 : Float)
    else if name == "nan" then some (0 / 0 : Float)
    else (decimal? cs).map fun (m, e) => float m e
  some (if negative then -magnitude else magnitude)

/-- The integer that a text denotes: plain digits with an optional sign. -/
def int? (s : String) : Option Int := do
  let cs ← Text.joinDigits? (Text.plainDigits (Text.trimBlanks s.toList))
  let (negative, cs) := sign cs
  if cs.isEmpty || !cs.all Char.isDigit then none
  else
    let n : Int := natOfDigits cs
    some (if negative then -n else n)

end Projectivity.Decimal.Numeral
