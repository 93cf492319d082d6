import Projectivity.Yaml.Cursor
import Projectivity.Yaml.Style

/-!
# Writing documents

A value as a document in block style: an entry of a record or an item of a list on
each line, with two columns of indentation for each level.  The entries keep their
order.
-/

set_option autoImplicit false

namespace Projectivity.Yaml

/-- Numbers are written with a point, and with an exponent from `10 ^ 16` on and below
`10 ^ -4`. -/
def numberLayout : Decimal.Shortest.Layout := ⟨-4, 16, true⟩

/-- A floating-point number as a scalar. -/
def realText (x : Float) : String :=
  match Decimal.Shortest.render? numberLayout x with
  | some s => s
  | none => if x.isNaN then ".nan" else if x < 0 then "-.inf" else ".inf"

/-- A value without parts, written from a column on. -/
def scalarText (folds : Bool) (indent column : Nat) : Value → List Char
  | .null => "null".toList
  | .bool true => "true".toList
  | .bool false => "false".toList
  | .int n => (toString n).toList
  | .float x => (realText x).toList
  | .text s => Style.render folds indent column s
  | .list _ => "[]".toList
  | .record _ => "\x7b\x7d".toList

/-- The length from which on a key is not written in front of its colon. -/
def keyLimit : Nat := 123

/-- Whether a key can be written in front of its colon. -/
def isSimpleKey : Value → Bool
  | .text s => !s.isEmpty && !s.toList.any isBreak && decide (s.length < keyLimit)
  | _ => true

mutual

/-- A value whose first line is written from a column on and whose further lines are indented up
to it. -/
def blockText (indent : Nat) : Value → List Char
  | .list (v :: rest) =>
    '-' :: ' ' :: blockText (indent + 2) v ++ itemsText indent rest
  | .record (e :: rest) => entryText indent e ++ entriesText indent rest
  | v => scalarText true indent indent v

/-- The further items of a list. -/
def itemsText (indent : Nat) : List Value → List Char
  | [] => []
  | v :: rest =>
    Style.newLine indent ++ '-' :: ' ' :: blockText (indent + 2) v ++ itemsText indent rest

/-- The value of an entry behind its key, which ends in front of a column.  A list is not
indented further than the key. -/
def valueText (indent column : Nat) : Value → List Char
  | .list (v :: rest) =>
    Style.newLine indent ++ '-' :: ' ' :: blockText (indent + 2) v ++ itemsText indent rest
  | .record (e :: rest) =>
    Style.newLine (indent + 2) ++ entryText (indent + 2) e ++ entriesText (indent + 2) rest
  | v => ' ' :: scalarText true (indent + 2) (column + 1) v

/-- An entry of a record. -/
def entryText (indent : Nat) : Value × Value → List Char
  | (k, v) =>
    if isSimpleKey k then
      let key := scalarText false indent indent k
      key ++ ':' :: valueText indent (indent + key.length + 1) v
    else
      '?' :: ' ' :: scalarText true (indent + 2) (indent + 2) k ++ Style.newLine indent ++
        ':' :: ' ' :: blockText (indent + 2) v

/-- The further entries of a record. -/
def entriesText (indent : Nat) : List (Value × Value) → List Char
  | [] => []
  | e :: rest => Style.newLine indent ++ entryText indent e ++ entriesText indent rest

end

/-- A value as a document. -/
def render (v : Value) : String := String.ofList (blockText 0 v ++ ['\n'])

end Projectivity.Yaml
