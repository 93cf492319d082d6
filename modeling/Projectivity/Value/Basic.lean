import Projectivity.Decimal.Dyadic
import Projectivity.Decimal.Numeral
import Projectivity.Decimal.Shortest
import Projectivity.Text.Quoted

/-!
# Values

A tree of settings or of raw coordinates: null, truth values, integers, floating-point
numbers, texts, lists and records.  The entries of a record keep their order.
-/

set_option autoImplicit false

namespace Projectivity

/-- A tree of plain data. -/
inductive Value where
  | null
  | bool (b : Bool)
  | int (n : Int)
  | float (x : Float)
  | text (s : String)
  | list (items : List Value)
  | record (entries : List (Value × Value))

namespace Value

/-- The name of the kind of data at the root. -/
def kindName : Value → String
  | null => "NoneType"
  | bool _ => "bool"
  | int _ => "int"
  | float _ => "float"
  | text _ => "str"
  | list _ => "list"
  | record _ => "dict"

/-- Numbers are written with an exponent from `10 ^ 16` on and below `10 ^ -4`. -/
def numberLayout : Decimal.Shortest.Layout := ⟨-4, 16, false⟩

/-- The shortest text that reads back as the number. -/
def floatText (x : Float) : String :=
  match Decimal.Shortest.render? numberLayout x with
  | some s => s
  | none => if x.isNaN then "nan" else if x < 0 then "-inf" else "inf"

/-- A truth value as text. -/
def boolText (b : Bool) : String := if b then "True" else "False"

mutual

/-- A value as text, with texts in quotes. -/
def render : Value → String
  | null => "None"
  | bool b => boolText b
  | int n => toString n
  | float x => floatText x
  | text s => Text.Quoted.render s
  | list items => "[" ++ String.intercalate ", " (renderItems items) ++ "]"
  | record entries => "\x7b" ++ String.intercalate ", " (renderEntries entries) ++ "\x7d"

/-- The items of a list as texts. -/
def renderItems : List Value → List String
  | [] => []
  | v :: rest => render v :: renderItems rest

/-- The entries of a record as texts. -/
def renderEntries : List (Value × Value) → List String
  | [] => []
  | (k, v) :: rest => (render k ++ ": " ++ render v) :: renderEntries rest

end

/-- A value as text, where a text stands for itself. -/
def display : Value → String
  | text s => s
  | v => render v

/-- The parts that iteration over a value yields: the items of a list, the characters of a text
and the keys of a record. -/
def parts? : Value → Option (List Value)
  | list items => some items
  | text s => some (s.toList.map fun c => text (String.singleton c))
  | record entries => some (entries.map Prod.fst)
  | _ => none

/-- Whether a value counts as false: null, zero and everything empty. -/
def isEmpty : Value → Bool
  | null => true
  | bool b => !b
  | int n => n == 0
  | float x => x == 0
  | text s => s.isEmpty
  | list items => items.isEmpty
  | record entries => entries.isEmpty

/-- Whether two floating-point and integer numbers are equal. -/
def sameNumber (n : Int) (x : Float) : Bool :=
  match Decimal.Dyadic.ofFloat? x with
  | some d => d.isInt n
  | none => false

/-- A truth value as an integer. -/
def boolInt (b : Bool) : Int := if b then 1 else 0

mutual

/-- Whether two values are equal: numbers by what they denote, records without regard to order. -/
def same : Value → Value → Bool
  | null, null => true
  | bool a, bool b => a == b
  | bool a, int n => boolInt a == n
  | int n, bool b => n == boolInt b
  | bool a, float x => sameNumber (boolInt a) x
  | float x, bool b => sameNumber (boolInt b) x
  | int a, int b => a == b
  | int n, float x => sameNumber n x
  | float x, int n => sameNumber n x
  | float x, float y => x == y
  | text a, text b => a == b
  | list a, list b => sameItems a b
  | record a, record b => a.length == b.length && sameEntries a b
  | _, _ => false

/-- Whether two lists have equal items. -/
def sameItems : List Value → List Value → Bool
  | [], [] => true
  | a :: as, b :: bs => same a b && sameItems as bs
  | _, _ => false

/-- Whether each entry of the first record is one of the second. -/
def sameEntries : List (Value × Value) → List (Value × Value) → Bool
  | [], _ => true
  | (k, v) :: rest, entries =>
    entries.any (fun e => same k e.1 && same v e.2) && sameEntries rest entries

end

/-- The value that a record holds under a name. -/
def field? (entries : List (Value × Value)) (name : String) : Option Value :=
  (entries.find? fun e => match e.1 with
    | text s => s == name
    | _ => false).map Prod.snd

/-- A record with a key set to a value: in its old place if the key was there, at the end if not. -/
def insert (entries : List (Value × Value)) (key value : Value) : List (Value × Value) :=
  if entries.any (fun e => same e.1 key) then
    entries.map fun e => if same e.1 key then (e.1, value) else e
  else entries ++ [(key, value)]

end Value

end Projectivity
