import Projectivity.Scalar

/-!
# Points and correspondences

A correspondence is a pair of matching points in two views.
-/

set_option autoImplicit false

namespace Projectivity

/-- A point of an image plane. -/
structure Point (α : Type) where
  x : α
  y : α
deriving BEq, DecidableEq

/-- A point in homogeneous coordinates. -/
structure Homogeneous (α : Type) where
  x : α
  y : α
  w : α

/-- A point of the source view and the point of the destination view that it matches. -/
structure Correspondence (α : Type) where
  source : Point α
  destination : Point α
deriving BEq, DecidableEq

namespace Point

variable {α : Type} [Scalar α]

/-- The difference of two points, coordinate by coordinate. -/
def sub (p q : Point α) : Point α := ⟨p.x - q.x, p.y - q.y⟩

/-- The square of the distance from the origin. -/
def squaredLength (p : Point α) : α := Scalar.square p.x + Scalar.square p.y

/-- The distance from the origin. -/
def length (p : Point α) : α := Scalar.sqrt p.squaredLength

/-- The coordinates in order. -/
def coordinates (p : Point α) : List α := [p.x, p.y]

/-- The centroid of a list of points. -/
def centroid (points : List (Point α)) : Point α :=
  ⟨Scalar.mean (points.map Point.x), Scalar.mean (points.map Point.y)⟩

/-- Points matched one to one.  A list of a single point matches every point of the other list,
and other lists of unequal length do not match. -/
def align? (a b : List (Point α)) : Option (List (Point α × Point α)) :=
  if a.length == b.length then some (a.zip b)
  else match a, b with
    | [p], b => some (b.map fun q => (p, q))
    | a, [q] => some (a.map fun p => (p, q))
    | _, _ => none

end Point

namespace Correspondence

variable {α : Type}

/-- The correspondence read from the destination to the source. -/
def swap (c : Correspondence α) : Correspondence α := ⟨c.destination, c.source⟩

/-- The source points of a list of correspondences. -/
def sources (data : List (Correspondence α)) : List (Point α) := data.map source

/-- The destination points of a list of correspondences. -/
def destinations (data : List (Correspondence α)) : List (Point α) := data.map destination

/-- The correspondences of a list without repetitions. -/
def distinct [BEq α] (data : List (Correspondence α)) : List (Correspondence α) := data.eraseDups

end Correspondence

end Projectivity
