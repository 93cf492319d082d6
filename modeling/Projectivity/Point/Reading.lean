import Projectivity.Point
import Projectivity.Scalar.Double
import Projectivity.Value.Number

/-!
# Reading points

Points and correspondences given as plain data.  Two parts are taken apart first, and
each part is read afterwards, the source before the destination.
-/

set_option autoImplicit false

namespace Projectivity

/-- The two parts of a value that has exactly two. -/
def Value.pair? (v : Value) : Option (Value × Value) :=
  match v.parts? with
  | some [a, b] => some (a, b)
  | _ => none

/-- A point given as two coordinates. -/
def Point.read (v : Value) : Result (Point Float) :=
  match v.pair? with
  | none => .error (.malformedPoint v)
  | some (a, b) => do
    let x ← a.toFloat
    let y ← b.toFloat
    return ⟨x, y⟩

/-- A correspondence given as a source and a destination. -/
def Correspondence.read (v : Value) : Result (Correspondence Float) :=
  match v.pair? with
  | none => .error (.malformedPair v)
  | some (a, b) => do
    let source ← Point.read a
    let destination ← Point.read b
    return ⟨source, destination⟩

/-- The correspondences that a value lists. -/
def Correspondence.readAll (v : Value) : Result (List (Correspondence Float)) :=
  match v.parts? with
  | none => .error .wrongType
  | some parts => parts.mapM Correspondence.read

end Projectivity
