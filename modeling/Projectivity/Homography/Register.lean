import Projectivity.Homography.Basic
import Projectivity.Matrix.Jacobi
import Projectivity.Matrix.Render
import Projectivity.Point.Reading
import Projectivity.Table

/-!
# Registers of homographies

Homographies under names, and the operations on them with arguments as they are given
from outside, as far as they can be read.  The matrix of a homography is in an array.
Arrays are handed out as well, and whoever holds one can overwrite it or pass it on to
an operation.  What is written under a name is always an array of its own.
-/

set_option autoImplicit false

namespace Projectivity

/-- The homography that a table of its rows gives. -/
def Homography.ofTable {α : Type} [Scalar α] (t : Table α) : Result (Homography α) := do
  ofMatrix (← t.matrix)

/-- Homographies under names.  The address of an array is its position among all arrays. -/
structure Register (α : Type) where
  arrays : List (Matrix3 α)
  /-- The addresses of the matrices of homographies; the first entry of a name counts. -/
  addresses : List (String × Nat)
  /-- The addresses of the arrays that have been handed out, the latest one first. -/
  held : List Nat

namespace Register

variable {α : Type}

/-- A matrix as an argument. -/
inductive Argument (α : Type) where
  /-- It is given as a table, or as something that cannot be read as one. -/
  | given (table : Result (Table α))
  /-- It is one of the arrays that have been handed out. -/
  | held (position : Nat)

/-- What can be done with the homographies of a register.  The first argument is the name of the
homography that an operation reads or writes. -/
inductive Operation (α : Type) where
  /-- A homography is put under a name, the identity if there is no matrix. -/
  | create (name : String) (matrix : Option (Argument α))
  | set (name : String) (matrix : Argument α)
  /-- The matrix is handed out. -/
  | get (name : String)
  /-- New entries are written into an array that has been handed out. -/
  | overwrite (position : Nat) (A : Matrix3 α)
  | invert (name target : String)
  | copy (name target : String)
  | assign (name source : String)
  /-- Something of another family of models is assigned. -/
  | assignForeign (name family : String)
  | estimate (name : String) (data : Result (List (Correspondence α)))
  | apply (name : String) (point : Result (Point α))
  | applyAll (name : String) (points : Result (List (Point α)))
  | minItems (name : String)
  | describe (name : String)

/-- The name of the homography that an operation may change. -/
def Operation.target? : Operation α → Option String
  | .create name _ | .set name _ | .assign name _ | .estimate name _ => some name
  | .invert _ target | .copy _ target => some target
  | _ => none

/-- What an operation answers. -/
inductive Answer (α : Type) where
  | matrix (A : Matrix3 α)
  | estimate (success : Bool) (A : Matrix3 α)
  | point (p : Point α)
  | points (images : List (Option (Point α)))
  | count (n : Nat)
  | text (s : String)

/-- What an operation does to the arrays and names. -/
inductive Effect (α : Type) where
  | nothing
  /-- A new array becomes the matrix of the homography under a name. -/
  | bind (name : String) (H : Homography α)
  /-- A new array is handed out. -/
  | handOut (A : Matrix3 α)
  /-- New entries are written into an array. -/
  | overwrite (address : Nat) (A : Matrix3 α)

/-- The register without homographies and arrays. -/
def empty : Register α := ⟨[], [], []⟩

/-- The homography under a name. -/
def find? (r : Register α) (name : String) : Option (Homography α) :=
  (r.addresses.lookup name).bind fun address => r.arrays[address]?.map Homography.mk

/-- The homography under a name, which has to be there. -/
def get (r : Register α) (name : String) : Result (Homography α) :=
  match r.find? name with
  | some H => .ok H
  | none => .error .notReady

/-- The address of an array that has been handed out. -/
def heldAddress (r : Register α) (position : Nat) : Result Nat :=
  match r.held[position]? with
  | some address => .ok address
  | none => .error .notReady

/-- The table that an argument is. -/
def Argument.table (r : Register α) : Argument α → Result (Table α)
  | .given table => table
  | .held position => do
    match r.arrays[← r.heldAddress position]? with
    | some A => return ⟨[3, 3], A.entries⟩
    | none => throw .notReady

/-- The register behind an effect. -/
def perform (r : Register α) : Effect α → Register α
  | .nothing => r
  | .bind name H =>
    { r with
      arrays := r.arrays ++ [H.matrix]
      addresses := (name, r.arrays.length) :: r.addresses }
  | .handOut A => { r with arrays := r.arrays ++ [A], held := r.arrays.length :: r.held }
  | .overwrite address A => { r with arrays := r.arrays.set address A }

variable [Scalar α]

/-- The register with the identity under a name. -/
def start (name : String) : Register α := empty.perform (.bind name Homography.identity)

/-- The homography that a value gives by its matrix. -/
def readHomography (v : Value) : Result (Homography Float) := do
  Homography.ofTable (← Table.read v)

/-- A homography as text. -/
def description (report : α → Float) (H : Homography α) : String :=
  "HomographyModel(" ++ (H.matrix.map report).render ++ ")"

/-- The image of a point, which must not be at infinity. -/
def image (report : α → Float) (H : Homography α) (p : Point α) : Result (Point α) :=
  match H.apply p with
  | .ok q => .ok q
  | .error h => .error (.pointAtInfinity (report p.x) (report p.y) (report h.w))

/-- The answer and the effect of an operation that writes a homography. -/
def written (name : String) (H : Homography α) : Answer α × Effect α :=
  (.matrix H.matrix, .bind name H)

variable [Spectral α]

/-- The answer of an operation, and what it does.  Texts show scalars as doubles. -/
def evaluate (report : α → Float) (r : Register α) :
    Operation α → Result (Answer α × Effect α)
  | .create name none => .ok (written name Homography.identity)
  | .create name (some matrix) => do
    return written name (← Homography.ofTable (← matrix.table r))
  | .set name matrix => do
    let _ ← r.get name
    return written name (← Homography.ofTable (← matrix.table r))
  | .get name => do
    let H ← r.get name
    return (.matrix H.matrix, .handOut H.matrix)
  | .overwrite position A => do
    return (.matrix A, .overwrite (← r.heldAddress position) A)
  | .invert name target => do
    return written target (← (← r.get name).inverse)
  | .copy name target => do
    return written target (← Homography.ofMatrix (← r.get name).matrix)
  | .assign name source => do
    let _ ← r.get name
    match r.find? source with
    | some H => return written name H
    | none => throw (.foreignModel "NoneType")
  | .assignForeign name family => do
    let _ ← r.get name
    throw (.foreignModel family)
  | .estimate name data => do
    let H ← r.get name
    let (success, next) := H.estimate (← data)
    return (.estimate success next.matrix, if success then .bind name next else .nothing)
  | .apply name point => do
    let H ← r.get name
    return (.point (← image report H (← point)), .nothing)
  | .applyAll name points => do
    let H ← r.get name
    return (.points (H.applyAll (← points)), .nothing)
  | .minItems name => do
    let _ ← r.get name
    return (.count Linear.minItems, .nothing)
  | .describe name => do
    return (.text (description report (← r.get name)), .nothing)

/-- The answer of an operation, and the register behind it. -/
def run (report : α → Float) (r : Register α) (operation : Operation α) :
    Result (Answer α) × Register α :=
  match r.evaluate report operation with
  | .error cause => (.error cause, r)
  | .ok (answer, effect) => (.ok answer, r.perform effect)

/-- The answers of a sequence of operations, and the register behind them. -/
def runAll (report : α → Float) (r : Register α) :
    List (Operation α) → List (Result (Answer α)) × Register α
  | [] => ([], r)
  | operation :: rest =>
    let (answer, r) := r.run report operation
    let (answers, r) := runAll report r rest
    (answer :: answers, r)

end Register

end Projectivity
