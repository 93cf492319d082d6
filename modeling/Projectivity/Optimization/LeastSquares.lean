import Projectivity.Fault
import Projectivity.Matrix.Spectrum

/-!
# Nonlinear least squares

The Levenberg–Marquardt method: each step minimizes a linear model of the residuals
within a ball around the current point, and the ball grows or shrinks with the
quality of the model.  The derivatives are forward differences.  The linear problems
are solved in the singular vectors of the derivatives, where they fall apart into
one equation for each singular value.
-/

set_option autoImplicit false

namespace Projectivity.LeastSquares

variable {α : Type} [Scalar α] [Spectral α]

/-- Residuals as a function of the unknowns. -/
abbrev Objective (α : Type) := List α → List α

/-- When the iteration ends. -/
structure Limits (α : Type) where
  /-- The number of evaluations after which no further step is made. -/
  evaluations : Nat
  /-- The relative change of the sum of squares and of the unknowns that counts as none. -/
  tolerance : α

/-- The cosine of the angle between residuals and derivatives that counts as zero. -/
def gradientTolerance : α := Scalar.decimal 1 8

/-- The distance between one and the next number, and the least tolerance. -/
def precision : α := Scalar.decimal 2220446049250313 31

/-- The relative step of a difference quotient. -/
def differenceStep : α := Scalar.sqrt precision

/-- The least positive number that keeps its precision. -/
def leastNormal : α := Scalar.decimal 22250738585072014 324

/-- The sum of two vectors. -/
def add (a b : List α) : List α := List.zipWith (· + ·) a b

/-- The derivatives of the residuals by each unknown, as difference quotients. -/
def derivatives (f : Objective α) (x r : List α) : List (List α) :=
  x.mapIdx fun j v =>
    let size := differenceStep * Scalar.abs v
    let step := if size ≤ 0 then differenceStep else size
    (f (x.set j (v + step))).zipWith (fun moved here => (moved - here) / step) r

/-- One singular value of the derivatives: its vector, and the part of the residuals along its
image. -/
structure Mode (α : Type) where
  value : α
  vector : List α
  residual : α

/-- A linear model of the residuals around a point. -/
structure Model (α : Type) where
  modes : List (Mode α)
  /-- The largest cosine of an angle between the residuals and a column of derivatives. -/
  gradient : α

/-- The rows of a matrix given by its columns. -/
def rows (columns : List (List α)) (height : Nat) : List (List α) :=
  (List.range height).map fun i => columns.map fun c => c.getD i 0

/-- The combination of columns with the given coefficients. -/
def combine (columns : List (List α)) (coefficients : List α) (height : Nat) : List α :=
  (columns.zip coefficients).foldl (fun sum p => add sum (p.1.map (p.2 * ·)))
    (List.replicate height 0)

/-- The linear model with the given derivatives and residuals. -/
def Model.ofDerivatives (columns : List (List α)) (r : List α) : Model α :=
  let size := Scalar.norm r
  let spectrum := Spectral.spectrum (rows columns r.length)
  let modes := List.zipWith (fun s v =>
    let image := combine columns v r.length
    Mode.mk s v (if 0 < s then Scalar.dot image r / s else 0)) spectrum.values spectrum.vectors
  let cosine (c : List α) : α :=
    let length := Scalar.norm c
    if 0 < length then Scalar.abs (Scalar.dot c r / size / length) else 0
  ⟨modes, if 0 < size then Scalar.largestAbs (columns.map cosine) else 0⟩

namespace Model

/-- The coefficients of the step for a damping, along the singular vectors. -/
def coefficients (m : Model α) (damping : α) : List α :=
  m.modes.map fun d =>
    if 0 < d.value then
      if 0 < damping then d.value * d.residual / (Scalar.square d.value + damping)
      else d.residual / d.value
    else 0

/-- The step with the given coefficients. -/
def step (m : Model α) (coefficients : List α) (width : Nat) : List α :=
  (combine (m.modes.map Mode.vector) coefficients width).map (- ·)

/-- The change of the linear model along a step with the given coefficients. -/
def change (m : Model α) (coefficients : List α) : α :=
  Scalar.norm (List.zipWith (fun d y => d.value * y) m.modes coefficients)

/-- Whether all singular values are positive. -/
def isRegular (m : Model α) : Bool := m.modes.all fun d => decide (0 < d.value)

/-- The derivative of the length of the step by the damping, over the length and with the sign
turned. -/
def shrinkage (m : Model α) (coefficients : List α) (length damping : α) : α :=
  (List.zipWith (fun d y => Scalar.square (y / length) / (Scalar.square d.value + damping))
    m.modes coefficients).sum

/-- The part of the radius by which the length of a step may differ from it. -/
def slack : α := Scalar.decimal 1 1

/-- Newton steps for the damping under which the length of the step is the radius, within bounds
that close in on it. -/
def searchDamping (m : Model α) (radius : α) : Nat → (lower upper damping excess : α) → α
  | 0, _, _, damping, _ => damping
  | fuel + 1, lower, upper, damping, previous =>
    let damping :=
      if damping ≤ 0 then Scalar.larger leastNormal (Scalar.decimal 1 3 * upper) else damping
    let y := m.coefficients damping
    let length := Scalar.norm y
    let excess := length - radius
    if Scalar.abs excess ≤ slack * radius ||
        (lower ≤ 0 && excess ≤ previous && decide (previous < 0)) || fuel == 0 then damping
    else
      let correction := excess / radius / m.shrinkage y length damping
      let lower := if 0 < excess then Scalar.larger lower damping else lower
      let upper := if excess < 0 then Scalar.smaller upper damping else upper
      searchDamping m radius fuel lower upper (Scalar.larger lower (damping + correction)) excess

/-- The damping for a radius: none if the full step is short enough. -/
def damping (m : Model α) (radius last : α) : α :=
  let y := m.coefficients 0
  let length := Scalar.norm y
  let excess := length - radius
  if excess ≤ slack * radius then 0
  else
    let lower := if m.isRegular then excess / radius / m.shrinkage y length 0 else 0
    let slope := Scalar.norm (m.modes.map fun d => d.value * d.residual)
    let upper := slope / radius
    let upper := if upper ≤ 0 then leastNormal / Scalar.smaller radius slack else upper
    let start := Scalar.smaller (Scalar.larger last lower) upper
    m.searchDamping radius 10 lower upper (if start ≤ 0 then slope / length else start) excess

end Model

/-- The state of the iteration. -/
structure State (α : Type) where
  point : List α
  residuals : List α
  evaluations : Nat
  /-- The linear model at the point. -/
  model : Model α
  /-- The radius of the ball in which the model is trusted. -/
  radius : α
  damping : α
  /-- Whether no step has been accepted yet. -/
  isFirst : Bool

/-- How an iteration ends: with the last point, and whether it is a solution. -/
structure Solution (α : Type) where
  point : List α
  converged : Bool

/-- The outcome of a trial step. -/
structure Trial (α : Type) where
  /-- The relative reduction of the sum of squares. -/
  actual : α
  /-- The reduction that the linear model predicts. -/
  predicted : α
  /-- The quotient of the two. -/
  ratio : α

/-- The state with the linear model at its point. -/
def State.linearize (f : Objective α) (s : State α) : State α :=
  { s with
    model := Model.ofDerivatives (derivatives f s.point s.residuals) s.residuals
    evaluations := s.evaluations + s.point.length }

/-- The comparison of a step with its prediction. -/
def Trial.of (size newSize change damping length : α) : Trial α :=
  let tenth : α := Scalar.decimal 1 1
  let actual := if tenth * newSize < size then 1 - Scalar.square (newSize / size) else -1
  let a := Scalar.square (change / size)
  let b := Scalar.square (Scalar.sqrt damping * length / size)
  let predicted := a + b / Scalar.decimal 5 1
  ⟨actual, predicted, if predicted ≤ 0 then 0 else actual / predicted⟩

/-- The radius and the damping after a trial step of a given length. -/
def adapt (t : Trial α) (size newSize change damping length radius : α) : α × α :=
  let tenth : α := Scalar.decimal 1 1
  let half : α := Scalar.decimal 5 1
  if t.ratio ≤ Scalar.decimal 25 2 then
    let slope := -(Scalar.square (change / size) +
      Scalar.square (Scalar.sqrt damping * length / size))
    let factor := if 0 ≤ t.actual then half else half * slope / (slope + half * t.actual)
    let factor := if size ≤ tenth * newSize || decide (factor < tenth) then tenth else factor
    (factor * Scalar.smaller radius (length / tenth), damping / factor)
  else if damping ≤ 0 || decide (Scalar.decimal 75 2 ≤ t.ratio) then
    (length / half, half * damping)
  else (radius, damping)

/-- Trial steps until the tolerance or the limit of evaluations is reached.  Every trial costs an
evaluation, so the fuel never runs out first. -/
def iterate (f : Objective α) (limits : Limits α) : Nat → State α → Solution α
  | 0, s => ⟨s.point, false⟩
  | fuel + 1, s =>
    if s.model.gradient ≤ gradientTolerance then ⟨s.point, true⟩
    else
      let size := Scalar.norm s.residuals
      let damping := s.model.damping s.radius s.damping
      let y := s.model.coefficients damping
      let step := s.model.step y s.point.length
      let length := Scalar.norm step
      let radius := if s.isFirst then Scalar.smaller s.radius length else s.radius
      let moved := add s.point step
      let residuals := f moved
      let newSize := Scalar.norm residuals
      let change := s.model.change y
      let trial := Trial.of size newSize change damping length
      let (radius, damping) := adapt trial size newSize change damping length radius
      let accepted : Bool := decide (Scalar.decimal 1 4 ≤ trial.ratio)
      let s := { s with radius, damping, evaluations := s.evaluations + 1 }
      let s := if accepted then { s with point := moved, residuals, isFirst := false } else s
      let settled := Scalar.abs trial.actual ≤ limits.tolerance &&
        trial.predicted ≤ limits.tolerance && Scalar.decimal 5 1 * trial.ratio ≤ 1
      if settled || decide (radius ≤ limits.tolerance * Scalar.norm s.point) then ⟨s.point, true⟩
      else if limits.evaluations ≤ s.evaluations then ⟨s.point, false⟩
      else iterate f limits fuel (if accepted then s.linearize f else s)

/-- The multiple of the size of the start that is the first radius. -/
def firstRadius (start : List α) : α :=
  let hundred : α := ((100 : Nat) : α)
  let size := hundred * Scalar.norm start
  if size ≤ 0 then hundred else size

/-- Whether a problem is accepted.  Problems without a positive limit, with a tolerance below the
precision of numbers, with fewer residuals than unknowns or with a residual that is not finite at
the start are refused. -/
def accepts (limits : Limits α) (f : Objective α) (start : List α) : Bool :=
  let r := f start
  limits.evaluations != 0 && !decide (limits.tolerance < precision) &&
    r.all Scalar.isFinite && decide (start.length ≤ r.length)

/-- A local minimum of the sum of squares, for a problem that is accepted. -/
def minimize (limits : Limits α) (f : Objective α) (start : List α) : Result (Solution α) :=
  if accepts limits f start then
    let s : State α :=
      { point := start, residuals := f start, evaluations := 1, model := ⟨[], 0⟩
        radius := firstRadius start, damping := 0, isFirst := true }
    .ok (iterate f limits limits.evaluations (s.linearize f))
  else .error .meaningless

end Projectivity.LeastSquares
