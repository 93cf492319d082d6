import Projectivity.Matrix.Basic
import Projectivity.Scalar.Double
import Projectivity.Value.Number

/-!
# Tables

Rectangular arrays of numbers of any number of dimensions, as they are given from
outside.  Matrices and lists of points are the tables of certain shapes.
-/

set_option autoImplicit false

namespace Projectivity

/-- A rectangular array: its extents from the outside in, and its entries in order. -/
structure Table (α : Type) where
  shape : List Nat
  entries : List α

namespace Table

variable {α : Type}

/-- The table whose parts are the given tables, which have to be of one shape. -/
def ofParts? : List (Table α) → Option (Table α)
  | [] => some ⟨[0], []⟩
  | part :: rest =>
    if rest.all (·.shape == part.shape) then
      some ⟨(rest.length + 1) :: part.shape, part.entries ++ rest.flatMap entries⟩
    else none

mutual

/-- The table that nested lists of numbers stand for. -/
def read : Value → Result (Table Float)
  | .list items => do
    let parts ← readItems items
    match ofParts? parts with
    | some table => return table
    | none => throw .meaningless
  | v => do
    let x ← v.toFloat
    return ⟨[], [x]⟩

/-- The tables that the items of a list stand for. -/
def readItems : List Value → Result (List (Table Float))
  | [] => .ok []
  | v :: rest => do
    let table ← read v
    let tables ← readItems rest
    return table :: tables

end

/-- The consecutive pairs of a list. -/
def pairUp : List α → List (Point α)
  | x :: y :: rest => ⟨x, y⟩ :: pairUp rest
  | _ => []

/-- The points that the rows of a table are; the table without entries is no points. -/
def points? (t : Table α) : Option (List (Point α)) :=
  match t.shape with
  | [0] => some []
  | [_, 2] => some (pairUp t.entries)
  | _ => none

/-- The shape of a table of points, where a table without entries has rows of two. -/
def pointShape (t : Table α) : List Nat := if t.shape == [0] then [0, 2] else t.shape

/-- The matrix that a table is, if it is three by three. -/
def matrix? (t : Table α) : Option (Matrix3 α) :=
  if t.shape == [3, 3] then Matrix3.ofEntries? t.entries else none

/-- The matrix that a table is. -/
def matrix (t : Table α) : Result (Matrix3 α) :=
  match t.matrix? with
  | some A => .ok A
  | none => .error (.notThreeByThree t.shape)

/-- The points that a value lists. -/
def readPoints (v : Value) : Result (List (Point Float)) := do
  match (← read v).points? with
  | some points => return points
  | none => throw .meaningless

end Table

end Projectivity
