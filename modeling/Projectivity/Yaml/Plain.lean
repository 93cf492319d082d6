import Projectivity.Value.Basic

/-!
# Plain scalars

The meaning of a scalar that stands in a document without quotes: null, a truth
value, an integer, a floating-point number or a text.
-/

set_option autoImplicit false

namespace Projectivity.Yaml.Plain

/-- The spellings of null. -/
def nulls : List String := ["", "~", "null", "Null", "NULL"]

/-- The spellings of truth. -/
def trues : List String := ["yes", "Yes", "YES", "true", "True", "TRUE", "on", "On", "ON"]

/-- The spellings of falsehood. -/
def falses : List String := ["no", "No", "NO", "false", "False", "FALSE", "off", "Off", "OFF"]

/-- Scalars with a meaning that no value of this library has. -/
def reserved : List String := ["=", "<<"]

/-- Whether a character is a digit or an underscore. -/
def isGroup (c : Char) : Bool := c.isDigit || c == '_'

/-- The digits of a text in a base, with underscores left out. -/
def natOf? (base : Nat) (digit? : Char → Option Nat) (cs : List Char) : Option Nat :=
  let cs := cs.filter (· != '_')
  if cs.isEmpty then none
  else (cs.mapM digit?).map fun digits => digits.foldl (fun n d => base * n + d) 0

/-- The value of a digit below a base. -/
def digit? (base : Nat) (c : Char) : Option Nat :=
  let d :=
    if c.isDigit then c.toNat - '0'.toNat
    else if 'a' ≤ c ∧ c ≤ 'f' then c.toNat - 'a'.toNat + 10
    else if 'A' ≤ c ∧ c ≤ 'F' then c.toNat - 'A'.toNat + 10
    else base
  if d < base then some d else none

/-- The parts of a text between colons. -/
def colonParts (cs : List Char) : List (List Char) :=
  cs.foldr (fun c parts => match parts with
    | part :: rest => if c == ':' then [] :: part :: rest else (c :: part) :: rest
    | [] => [[c]]) [[]]

/-- A part of a number in base sixty behind its first: one or two digits below sixty. -/
def isSixtieth (cs : List Char) : Bool :=
  match cs with
  | [c] => c.isDigit
  | [c, d] => '0' ≤ c && c ≤ '5' && d.isDigit
  | _ => false

/-- The value of digits in groups. -/
def decimal (cs : List Char) : Nat := (natOf? 10 (digit? 10) cs).getD 0

/-- A number in base sixty. -/
def sixties (parts : List (List Char)) : Nat :=
  parts.foldl (fun n part => 60 * n + decimal part) 0

/-- A magnitude that is an integer: plain digits, base two, eight or sixteen behind a mark, or
base sixty. -/
def magnitude? (cs : List Char) : Option Nat :=
  match cs with
  | '0' :: 'b' :: digits => natOf? 2 (digit? 2) digits
  | '0' :: 'x' :: digits => natOf? 16 (digit? 16) digits
  | ['0'] => some 0
  | '0' :: digits =>
    if digits.all fun c => c == '_' then some 0 else natOf? 8 (digit? 8) digits
  | c :: _ =>
    match colonParts cs with
    | first :: rest =>
      if c.isDigit && first.all isGroup && rest.all isSixtieth then some (sixties (first :: rest))
      else none
    | [] => none
  | [] => none

/-- The integer that a scalar denotes. -/
def int? (cs : List Char) : Option Int :=
  match cs with
  | '-' :: cs => (magnitude? cs).map fun n => -(n : Int)
  | '+' :: cs => (magnitude? cs).map Int.ofNat
  | cs => (magnitude? cs).map Int.ofNat

/-- An exponent with a sign that takes up the whole text; the empty text stands for zero. -/
def exponent? (cs : List Char) : Option Int :=
  match cs with
  | [] => some 0
  | e :: sign :: digits =>
    if (e == 'e' || e == 'E') && (sign == '-' || sign == '+') && !digits.isEmpty &&
        digits.all Char.isDigit then
      let n : Int := decimal digits
      some (if sign == '-' then -n else n)
    else none
  | _ => none

/-- The number with the given whole part, digits behind the point and exponent. -/
def fraction (whole : Nat) (digits : List Char) (exponent : Int) : Float :=
  let digits := digits.filter (· != '_')
  Decimal.Numeral.float (whole * Nat.pow 10 digits.length + decimal digits)
    (exponent - digits.length)

/-- A magnitude that is a floating-point number.  It has a point, and an exponent has a sign; a
number in base sixty has no exponent. -/
def realMagnitude? (signed : Bool) (cs : List Char) : Option Float :=
  let whole := cs.takeWhile fun c => isGroup c || c == ':'
  match cs.dropWhile fun c => isGroup c || c == ':' with
  | '.' :: rest =>
    let digits := rest.takeWhile isGroup
    let tail := rest.dropWhile isGroup
    match whole, colonParts whole with
    | [], _ =>
      let name := String.ofList tail
      if digits.isEmpty && (name == "inf" || name == "Inf" || name == "INF") then some (1 / 0)
      else if digits.isEmpty && !signed && (name == "nan" || name == "NaN" || name == "NAN") then
        some (0 / 0)
      else match digits with
        | c :: _ =>
          if signed || !c.isDigit then none else (exponent? tail).map (fraction 0 digits)
        | [] => none
    | c :: _, [first] =>
      if c.isDigit then (exponent? tail).map (fraction (decimal first) digits) else none
    | c :: _, first :: parts =>
      if c.isDigit && first.all isGroup && parts.all isSixtieth && tail.isEmpty then
        some (fraction (sixties (first :: parts)) digits 0)
      else none
    | _, _ => none
  | _ => none

/-- The floating-point number that a scalar denotes. -/
def real? (cs : List Char) : Option Float :=
  match cs with
  | '-' :: cs => (realMagnitude? true cs).map fun x => -x
  | '+' :: cs => realMagnitude? true cs
  | cs => realMagnitude? false cs

/-- Whether all of a text is digits, of a number between two bounds. -/
def isCount (least most : Nat) (cs : List Char) : Bool :=
  cs.all Char.isDigit && decide (least ≤ cs.length) && decide (cs.length ≤ most)

/-- Whether a scalar is a date, with or without a time behind it. -/
def isDate (cs : List Char) : Bool :=
  let year := cs.takeWhile Char.isDigit
  match cs.dropWhile Char.isDigit with
  | '-' :: rest =>
    let month := rest.takeWhile Char.isDigit
    match rest.dropWhile Char.isDigit with
    | '-' :: rest =>
      let day := rest.takeWhile Char.isDigit
      let tail := rest.dropWhile Char.isDigit
      let looseDay := isCount 4 4 year && isCount 1 2 month && isCount 1 2 day
      (isCount 4 4 year && isCount 2 2 month && isCount 2 2 day && tail.isEmpty) ||
        (looseDay && isTime tail)
    | _ => false
  | _ => false
where
  isTime (cs : List Char) : Bool :=
    match cs with
    | c :: rest =>
      let rest := if c == 'T' || c == 't' then rest
        else rest.dropWhile fun c => c == ' ' || c == '\t'
      (c == 'T' || c == 't' || c == ' ' || c == '\t') && isClock rest
    | [] => false
  isClock (cs : List Char) : Bool :=
    match colonParts (cs.takeWhile fun c => c.isDigit || c == ':') with
    | [hour, minute, second] =>
      isCount 1 2 hour && isCount 2 2 minute && isCount 2 2 second &&
        isZone ((fractionTail (cs.dropWhile fun c => c.isDigit || c == ':')))
    | _ => false
  fractionTail (cs : List Char) : List Char :=
    match cs with
    | '.' :: rest => rest.dropWhile Char.isDigit
    | cs => cs
  isZone (cs : List Char) : Bool :=
    match cs.dropWhile fun c => c == ' ' || c == '\t' with
    | [] => cs.isEmpty
    | ['Z'] => true
    | sign :: rest =>
      (sign == '-' || sign == '+') &&
        match colonParts rest with
        | [hour] => isCount 1 2 hour
        | [hour, minute] => isCount 1 2 hour && isCount 2 2 minute
        | _ => false

/-- What a plain scalar stands for. -/
def value (s : String) : Value :=
  if nulls.contains s then .null
  else if trues.contains s then .bool true
  else if falses.contains s then .bool false
  else match int? s.toList with
    | some n => .int n
    | none => match real? s.toList with
      | some x => .float x
      | none => .text s

/-- Whether a plain scalar stands for itself. -/
def isText (s : String) : Bool :=
  !reserved.contains s && !isDate s.toList &&
    match value s with
    | .text _ => true
    | _ => false

end Projectivity.Yaml.Plain
