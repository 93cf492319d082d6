import Projectivity.Point

/-!
# Matrices of the projective plane

Three by three matrices, which act on points in homogeneous coordinates.
-/

set_option autoImplicit false

namespace Projectivity

/-- A three by three matrix, named by row and column. -/
structure Matrix3 (α : Type) where
  m11 : α
  m12 : α
  m13 : α
  m21 : α
  m22 : α
  m23 : α
  m31 : α
  m32 : α
  m33 : α
deriving BEq, DecidableEq

namespace Matrix3

variable {α : Type}

/-- The entries row by row. -/
def entries (A : Matrix3 α) : List α :=
  [A.m11, A.m12, A.m13, A.m21, A.m22, A.m23, A.m31, A.m32, A.m33]

/-- The rows. -/
def rows (A : Matrix3 α) : List (List α) :=
  [[A.m11, A.m12, A.m13], [A.m21, A.m22, A.m23], [A.m31, A.m32, A.m33]]

/-- The matrix with the given entries row by row, if there are nine. -/
def ofEntries? : List α → Option (Matrix3 α)
  | [a, b, c, d, e, f, g, h, i] => some ⟨a, b, c, d, e, f, g, h, i⟩
  | _ => none

/-- The matrix with every entry replaced by its image. -/
def map {β : Type} (f : α → β) (A : Matrix3 α) : Matrix3 β :=
  ⟨f A.m11, f A.m12, f A.m13, f A.m21, f A.m22, f A.m23, f A.m31, f A.m32, f A.m33⟩

/-- The entries of an image are the images of the entries. -/
theorem entries_map {β : Type} (f : α → β) (A : Matrix3 α) :
    (A.map f).entries = A.entries.map f := rfl

/-- A matrix is read from its entries. -/
theorem ofEntries?_entries (A : Matrix3 α) : ofEntries? A.entries = some A := rfl

/-- Reading entries goes with changing them. -/
theorem ofEntries?_map {β : Type} (f : α → β) (entries : List α) :
    ofEntries? (entries.map f) = (ofEntries? entries).map (map f) := by
  rcases entries with _ | ⟨_, _ | ⟨_, _ | ⟨_, _ | ⟨_, _ | ⟨_, _ | ⟨_, _ | ⟨_, _ | ⟨_, _ | ⟨_, _ |
    ⟨_, rest⟩⟩⟩⟩⟩⟩⟩⟩⟩⟩ <;> rfl

variable [Scalar α]

/-- The identity matrix. -/
def one : Matrix3 α := ⟨1, 0, 0, 0, 1, 0, 0, 0, 1⟩

/-- The product of two matrices. -/
def mul (A B : Matrix3 α) : Matrix3 α where
  m11 := A.m11 * B.m11 + A.m12 * B.m21 + A.m13 * B.m31
  m12 := A.m11 * B.m12 + A.m12 * B.m22 + A.m13 * B.m32
  m13 := A.m11 * B.m13 + A.m12 * B.m23 + A.m13 * B.m33
  m21 := A.m21 * B.m11 + A.m22 * B.m21 + A.m23 * B.m31
  m22 := A.m21 * B.m12 + A.m22 * B.m22 + A.m23 * B.m32
  m23 := A.m21 * B.m13 + A.m22 * B.m23 + A.m23 * B.m33
  m31 := A.m31 * B.m11 + A.m32 * B.m21 + A.m33 * B.m31
  m32 := A.m31 * B.m12 + A.m32 * B.m22 + A.m33 * B.m32
  m33 := A.m31 * B.m13 + A.m32 * B.m23 + A.m33 * B.m33

/-- The image of a homogeneous point. -/
def act (A : Matrix3 α) (p : Homogeneous α) : Homogeneous α where
  x := A.m11 * p.x + A.m12 * p.y + A.m13 * p.w
  y := A.m21 * p.x + A.m22 * p.y + A.m23 * p.w
  w := A.m31 * p.x + A.m32 * p.y + A.m33 * p.w

/-- The image of a point of the plane, in homogeneous coordinates. -/
def apply (A : Matrix3 α) (p : Point α) : Homogeneous α := A.act ⟨p.x, p.y, 1⟩

/-- The Frobenius norm. -/
def norm (A : Matrix3 α) : α := Scalar.norm A.entries

/-- Whether every entry is a finite number. -/
def isFinite (A : Matrix3 α) : Bool := A.entries.all Scalar.isFinite

/-- The determinant. -/
def det (A : Matrix3 α) : α :=
  A.m11 * (A.m22 * A.m33 - A.m23 * A.m32) - A.m12 * (A.m21 * A.m33 - A.m23 * A.m31) +
    A.m13 * (A.m21 * A.m32 - A.m22 * A.m31)

/-- The matrix of cofactors, transposed. -/
def adjugate (A : Matrix3 α) : Matrix3 α where
  m11 := A.m22 * A.m33 - A.m23 * A.m32
  m12 := A.m13 * A.m32 - A.m12 * A.m33
  m13 := A.m12 * A.m23 - A.m13 * A.m22
  m21 := A.m23 * A.m31 - A.m21 * A.m33
  m22 := A.m11 * A.m33 - A.m13 * A.m31
  m23 := A.m13 * A.m21 - A.m11 * A.m23
  m31 := A.m21 * A.m32 - A.m22 * A.m31
  m32 := A.m12 * A.m31 - A.m11 * A.m32
  m33 := A.m11 * A.m22 - A.m12 * A.m21

/-- The matrix with every entry divided by a scalar. -/
def scaleDown (A : Matrix3 α) (s : α) : Matrix3 α := A.map (· / s)

/-- The inverse of a non-singular matrix.  The entries are brought to the size of one first, so
that no product leaves the range of the scalars. -/
def inverse (A : Matrix3 α) : Matrix3 α :=
  let size := Scalar.largestAbs A.entries
  let B := A.scaleDown size
  (B.adjugate.scaleDown B.det).scaleDown size

/-- The matrix scaled to Frobenius norm one, with the sign that makes the last entry
non-negative. -/
def canonicalScale (A : Matrix3 α) : Matrix3 α :=
  let B := A.scaleDown A.norm
  if B.m33 < 0 then B.map (- ·) else B

end Matrix3

end Projectivity
