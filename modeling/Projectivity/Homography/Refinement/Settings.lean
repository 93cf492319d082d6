import Projectivity.Homography.Refinement
import Projectivity.Matrix.Jacobi
import Projectivity.Optimization.LeastSquares
import Projectivity.Value.Number

/-!
# Settings of a refinement

The limits of a refinement as they are configured.  They are read when the solver
runs, so that a refinement that is skipped never looks at them.
-/

set_option autoImplicit false

namespace Projectivity

/-- The solver that takes steps within the given limits. -/
def Refinement.leastSquares {α : Type} [Scalar α] [Spectral α] (limits : LeastSquares.Limits α) :
    Refinement.Solver α := fun objective start => do
  let onEntries (x : List α) : List α :=
    match Matrix3.ofEntries? x with
    | some G => objective G
    | none => []
  let solution ← LeastSquares.minimize limits onEntries start.entries
  match Matrix3.ofEntries? solution.point with
  | some G => return ⟨G, solution.converged⟩
  | none => throw .meaningless

/-- How a homography is refined. -/
structure Refinement.Settings where
  mode : Refinement := .symmetric
  /-- The number of evaluations of the residuals. -/
  budget : Value := .int 1000
  /-- The relative reduction of the cost that counts as none. -/
  tolerance : Value := .float (Scalar.decimal 1 10)

namespace Refinement.Settings

/-- The largest number of evaluations that can be counted. -/
def largestBudget : Int := 2147483647

/-- The number of evaluations where none is set: `100 * n * (n + 1)` for `n` unknowns. -/
def openBudget : Int := 9000

/-- The number of evaluations that is set. -/
def budgetNumber (s : Settings) : Result Number :=
  match s.budget with
  | .null => .ok (.int openBudget)
  | v => v.number

/-- The tolerance that is set; null is no tolerance at all. -/
def toleranceNumber (s : Settings) : Result Number :=
  match s.tolerance with
  | .null => .ok (.int 0)
  | v => v.number

/-- The solver with the configured limits.  A budget that is not positive and a bad problem are
refused; after that the budget has to be a whole number. -/
def solver (s : Settings) : Solver Float := fun objective start => do
  let budget ← s.budgetNumber
  if budget.le 0 then throw .meaningless
  let tolerance ← (← s.toleranceNumber).toFloat
  match budget with
  | .int n =>
    let solution ← leastSquares ⟨n.toNat, tolerance⟩ objective start
    if largestBudget < n then throw .overflow else return solution
  | .real _ =>
    let onStart (_ : List Float) : List Float := objective start
    if LeastSquares.accepts ⟨1, tolerance⟩ onStart start.entries then throw .wrongType
    else throw .meaningless

end Refinement.Settings

end Projectivity
