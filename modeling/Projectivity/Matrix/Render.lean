import Projectivity.Decimal.Scientific
import Projectivity.Matrix.Basic
import Projectivity.Scalar.Double

/-!
# Matrices as text

The rows of a matrix between brackets, with the points of all entries in line.  Entries
have at most six places, without trailing zeros.  All entries have an exponent if some
are very large or very small, or if they differ much in size.
-/

set_option autoImplicit false

namespace Projectivity.Matrix3

/-- The largest number of places behind the point. -/
def places : Nat := 6

/-- The parts of a number in front of the point, behind it, and behind its digits. -/
structure EntryText where
  whole : String
  fraction : String
  tail : String

/-- A text without the zeros at its end. -/
def dropZeros (s : String) : String :=
  String.ofList (s.toList.reverse.dropWhile (· == '0')).reverse

/-- A number without an exponent. -/
def positional (x : Float) : EntryText :=
  match Decimal.Dyadic.ofFloat? x with
  | none => ⟨if x.isNaN then "nan" else if x < 0 then "-inf" else "inf", "", ""⟩
  | some d =>
    let scaled := Decimal.roundHalfEven (d.numerator * Nat.pow 10 places) d.denominator
    let digits := toString (scaled % Nat.pow 10 places)
    let fraction := String.ofList (List.replicate (places - digits.length) '0') ++ digits
    let sign := if d.negative then "-" else ""
    ⟨sign ++ toString (scaled / Nat.pow 10 places), dropZeros fraction, ""⟩

/-- The parts of a number with an exponent and the given number of places. -/
def withExponent (places : Nat) (x : Float) : EntryText :=
  let text := (Decimal.Scientific.render places x).toList
  let mantissa := text.takeWhile (· != 'e')
  ⟨String.ofList (mantissa.takeWhile (· != '.')),
    String.ofList ((mantissa.dropWhile (· != '.')).drop 1),
    String.ofList (text.dropWhile (· != 'e'))⟩

/-- Whether numbers are written with exponents. -/
def needsExponent (entries : List Float) : Bool :=
  let sizes := (entries.filter fun x => x.isFinite && x != 0).map Float.abs
  match sizes with
  | [] => false
  | first :: rest =>
    let most := rest.foldl Scalar.larger first
    let least := rest.foldl Scalar.smaller first
    Float.ofNat (Nat.pow 10 8) ≤ most || least < Scalar.decimal 1 4 || 1000 < most / least

/-- The largest length among texts. -/
def widest (texts : List String) : Nat := (texts.map String.length).foldl max 0

/-- The parts of the entries as they are written together. -/
def entryTexts (entries : List Float) : List EntryText :=
  if needsExponent entries then
    let count := widest (entries.map fun x => dropZeros (withExponent places x).fraction)
    entries.map (withExponent count)
  else entries.map positional

/-- Spaces that fill a text up to a width. -/
def fill (width : Nat) (s : String) : String :=
  String.ofList (List.replicate (width - s.length) ' ')

/-- A matrix as text. -/
def render (A : Matrix3 Float) : String :=
  let texts := entryTexts A.entries
  let left := widest (texts.map EntryText.whole)
  let right := widest (texts.map EntryText.fraction)
  let entry (t : EntryText) : String :=
    fill left t.whole ++ t.whole ++ "." ++ t.fraction ++ t.tail ++ fill right t.fraction
  let row (start : Nat) : String :=
    "[" ++ String.intercalate " " (((texts.drop start).take 3).map entry) ++ "]"
  "[" ++ String.intercalate "\n " [row 0, row 3, row 6] ++ "]"

end Projectivity.Matrix3
