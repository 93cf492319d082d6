import Projectivity.Homography.Linear
import Projectivity.Homography.Sampson

/-!
# Refinement

A homography is improved on its inliers by a solver for least squares problems.  The
solver works on the entries of the homography in normalized coordinates, with one
further residual that fixes their scale.  Whatever the solver does, the outcome is
never worse than the start.
-/

set_option autoImplicit false

namespace Projectivity

/-- The geometric errors that a refinement can reduce. -/
inductive Refinement where
  | off
  | forward
  | inverse
  | symmetric
  | sampson
deriving DecidableEq

namespace Refinement

/-- All refinements, in the order in which they are listed. -/
def all : List Refinement := [off, forward, inverse, symmetric, sampson]

/-- The name of a refinement in configurations. -/
def name : Refinement → String
  | off => "none"
  | forward => "single_image_transfer"
  | inverse => "single_image_transfer_inverse"
  | symmetric => "symmetric_transfer"
  | sampson => "sampson"

/-- The refinement of a given name. -/
def ofName? (s : String) : Option Refinement := all.find? fun r => r.name == s

/-- Why a refinement is worth a warning. -/
inductive Notice where
  | failed
  | notConverged
  | singular
deriving DecidableEq

/-- A warning about a refinement as text. -/
def Notice.message (mode : Refinement) : Notice → String
  | failed => mode.name ++ " refinement failed, keeping initial estimate"
  | notConverged => mode.name ++ " refinement did not converge"
  | singular => mode.name ++ " refinement produced a singular matrix, keeping initial estimate"

/-- The outcome of a solver: the last point, and whether it is a solution. -/
structure Solution (α : Type) where
  point : Matrix3 α
  converged : Bool

/-- A solver for least squares problems, which is given the residuals as a function of a matrix
and a matrix to start from. -/
abbrev Solver (α : Type) := (Matrix3 α → List α) → Matrix3 α → Result (Solution α)

/-- The outcome of a refinement. -/
structure Outcome (α : Type) where
  matrix : Matrix3 α
  notices : List Notice

variable {α : Type} [Scalar α] [Spectral α]

/-- The residuals of a transform on a list of correspondences; forward ones without
refinement. -/
def vector (mode : Refinement) (H : Matrix3 α) (data : List (Correspondence α)) : List α :=
  match mode with
  | off | forward => ErrorVector.forward H data
  | inverse => ErrorVector.inverse H data
  | symmetric => ErrorVector.symmetric H data
  | sampson => Sampson.vector H data

/-- The sum of the squared residuals. -/
def cost (mode : Refinement) (H : Matrix3 α) (data : List (Correspondence α)) : α :=
  let r := mode.vector H data
  Scalar.dot r r

/-- The coordinates in which a refinement works. -/
structure Frame (α : Type) where
  source : Matrix3 α
  destination : Matrix3 α

namespace Frame

/-- The normalized coordinates of a list of correspondences. -/
def ofData? (data : List (Correspondence α)) : Option (Frame α) := do
  let S ← Normalization.transform? (Correspondence.sources data)
  let D ← Normalization.transform? (Correspondence.destinations data)
  return ⟨S, D⟩

/-- A transform of the plane in the coordinates of the frame. -/
def enter (F : Frame α) (H : Matrix3 α) : Matrix3 α :=
  (F.destination.mul H).mul F.source.inverse

/-- A transform in the coordinates of the frame as a transform of the plane. -/
def leave (F : Frame α) (G : Matrix3 α) : Matrix3 α :=
  (F.destination.inverse.mul G).mul F.source

end Frame

/-- The residuals in the coordinates of a frame, followed by the deviation of the squared norm
from one. -/
def objective (mode : Refinement) (F : Frame α) (data : List (Correspondence α))
    (G : Matrix3 α) : List α :=
  mode.vector (F.leave G) data ++ [Scalar.dot G.entries G.entries - 1]

/-- The outcome for the point that a solver ends at: the transform of that point, unless it is
singular or worse than the start. -/
def conclude (mode : Refinement) (initial : Matrix3 α) (data : List (Correspondence α))
    (F : Frame α) (solution : Solution α) : Outcome α :=
  let warnings := if solution.converged then [] else [Notice.notConverged]
  let H := F.leave solution.point
  if H.isNonSingular Matrix3.rankTolerance then
    let refined := H.canonicalScale
    if mode.cost refined data ≤ mode.cost initial data then ⟨refined, warnings⟩
    else ⟨initial, warnings⟩
  else ⟨initial, warnings ++ [Notice.singular]⟩

/-- A transform refined on its inliers.  It is kept as it is without refinement, on fewer than
four inliers, on coincident ones, and if it is singular.  A solver may refuse a problem for a bad
value; its other faults are passed on. -/
def refine (mode : Refinement) (solver : Solver α) (initial : Matrix3 α)
    (data : List (Correspondence α)) : Result (Outcome α) :=
  if mode = off || data.length < Linear.minItems ||
      !initial.isNonSingular Matrix3.rankTolerance then .ok ⟨initial, []⟩
  else
    match Frame.ofData? data with
    | none => .ok ⟨initial, []⟩
    | some F =>
      match solver (mode.objective F data) (F.enter initial).canonicalScale with
      | .ok solution => .ok (mode.conclude initial data F solution)
      | .error fault =>
        if fault.kind = .badValue then .ok ⟨initial, [Notice.failed]⟩ else .error fault

end Refinement

end Projectivity
