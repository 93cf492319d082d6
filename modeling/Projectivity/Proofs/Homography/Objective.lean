import Projectivity.Proofs.Exact.WideLinear
import Projectivity.Proofs.Homography.Factor
import Projectivity.Proofs.Homography.Improvement

/-!
# The objective of a refinement

The solver works in normalized coordinates, and it starts at the transform that it is
given: the way into these coordinates and back leads to a multiple of that transform,
which has the same residuals.  The residual for the scale vanishes at the start, and
elsewhere it only adds to the objective.  So a point that does not raise the objective
does not raise the cost either, and the refinement adopts it.
-/

set_option autoImplicit false

namespace Projectivity

open Wide (real)

namespace Wide

/-- A sum of real numbers and one more value at the end. -/
theorem sum_map_real_append (l : List ℝ) (b : Wide) :
    (l.map real ++ [b]).sum = real l.sum + b := by
  induction l with
  | nil =>
    show b + real 0 = real 0 + b
    cases b with
    | real y => exact congrArg real (add_comm y 0)
    | _ => rfl
  | cons x rest ih =>
    rw [List.map_cons, List.cons_append, List.sum_cons, ih, List.sum_cons]
    cases b with
    | real y => exact congrArg real (add_assoc x _ y).symm
    | _ => rfl

/-- The squared length of a vector of real numbers that is followed by any value. -/
theorem dot_append_self (l : List ℝ) (b : Wide) :
    Scalar.dot (l.map real ++ [b]) (l.map real ++ [b]) = real (ErrorVector.squares l) + b * b := by
  unfold Scalar.dot
  rw [List.zipWith_self, List.map_append, ErrorVector.map_mul_self_real]
  exact sum_map_real_append _ _

/-- A square does not lower a real number, and a special value has no real number above it. -/
theorem le_of_add_mul_self_le {x y : ℝ} {b : Wide} (h : real x + b * b ≤ real y) : x ≤ y := by
  cases b with
  | real z =>
    rw [real_mul, real_add, real_le_real] at h
    nlinarith [mul_self_nonneg z]
  | above =>
    have hsquare : above * above = above := infinite_of_pos (by norm_num [direction])
    rw [hsquare] at h
    exact h.elim
  | below =>
    have hsquare : below * below = above := infinite_of_pos (by norm_num [direction])
    rw [hsquare] at h
    exact h.elim
  | undefined =>
    have hsquare : undefined * undefined = undefined :=
      (congrArg infinite (mul_zero _)).trans infinite_zero
    rw [hsquare] at h
    exact h.elim

end Wide

/-- The squared norm of a matrix is the sum of the squares of its entries. -/
theorem Matrix3.dot_entries (A : Matrix3 ℝ) : Scalar.dot A.entries A.entries = A.norm ^ 2 := by
  rw [norm_eq, Real.sq_sqrt (by positivity)]
  simp [Scalar.dot, entries]
  ring

namespace Refinement

/-- A refinement that asks its solver, in the coordinates of a frame. -/
structure Asks {α : Type} [Scalar α] [Spectral α] (mode : Refinement) (initial : Matrix3 α)
    (data : List (Correspondence α)) (F : Frame α) : Prop where
  on : mode ≠ off
  enough : Linear.minItems ≤ data.length
  regular : initial.isNonSingular Matrix3.rankTolerance = true
  frame : Frame.ofData? data = some F

section Behaviour

variable {α : Type} [Scalar α] [Spectral α] {mode : Refinement} {initial : Matrix3 α}
variable {data : List (Correspondence α)} {F : Frame α}

/-- A solver is asked exactly if a fault of it that is no bad value is passed on. -/
theorem exists_asks_iff : (∃ F, mode.Asks initial data F) ↔
    mode.refine (fun _ _ => .error .overflow) initial data = .error .overflow := by
  rw [refine_error_iff]
  constructor
  · rintro ⟨F, h⟩
    exact ⟨h.on, h.enough, h.regular, ⟨F, h.frame, rfl⟩, by decide⟩
  · intro h
    obtain ⟨F, hF, -⟩ := h.refused
    exact ⟨F, h.on, h.enough, h.regular, hF⟩

/-- A refinement that asks its solver concludes from the point that the solver ends at. -/
theorem Asks.refine_eq (h : mode.Asks initial data F) {solver : Solver α} {solution : Solution α}
    (hsolver : solver (mode.objective F data) (F.enter initial).canonicalScale = .ok solution) :
    mode.refine solver initial data = .ok (mode.conclude initial data F solution) := by
  have hfew : ¬ data.length < Linear.minItems := Nat.not_lt.mpr h.enough
  simp [refine, h.on, hfew, h.regular, h.frame, hsolver]

/-- A point is adopted if it stands for a non-singular transform of no greater cost. -/
theorem conclude_of_cost_le {x : Matrix3 α} (converged : Bool)
    (hregular : (F.leave x).isNonSingular Matrix3.rankTolerance = true)
    (hcost : mode.cost (F.leave x).canonicalScale data ≤ mode.cost initial data) :
    mode.conclude initial data F ⟨x, converged⟩ =
      ⟨(F.leave x).canonicalScale, if converged then [] else [.notConverged]⟩ := by
  simp only [conclude, if_pos hregular, if_pos hcost]

end Behaviour

section Exact

variable [Spectral Wide] [Spectral.WideExact] {initial : Matrix3 Wide}
variable {data : List (Correspondence Wide)} {F : Frame Wide}

/-- The start of the solver is a multiple of the initial transform in the coordinates of the frame,
and its entries have the squared norm one. -/
theorem Frame.leave_start (hF : Frame.ofData? data = some F)
    (hregular : initial.isNonSingular Matrix3.rankTolerance = true) :
    let start := (F.enter initial).canonicalScale
    (∃ k : ℝ, k ≠ 0 ∧ F.leave start = initial.stretch k) ∧
      Scalar.dot start.entries start.entries = real 1 := by
  obtain ⟨S, D, hS, hD, rfl⟩ := Frame.exists_eq_widen hF
  obtain ⟨A, rfl, hA⟩ := Matrix3.exists_regular hregular
  obtain ⟨henter, hstart⟩ := Frame.enter_widen hS hD (hA.det_ne_zero Matrix3.tolerance_nonneg)
  intro start
  have hwiden : start = ((D.mul A).mul S.inverse).canonicalScale.widen := by
    rw [← Matrix3.widen_canonicalScale hstart, ← henter]
  refine ⟨?_, ?_⟩
  · obtain ⟨k, hk, hscale⟩ := Matrix3.canonicalScale_proportional hstart
    refine ⟨k, hk, ?_⟩
    calc Frame.leave ⟨S.widen, D.widen⟩ start
        = ((D.inverse.mul (((D.mul A).mul S.inverse).scale k)).mul S).widen := by
          rw [hwiden, hscale]
          simp only [Frame.leave]
          rw [Matrix3.widen_inverse hD, Matrix3.widen_mul, Matrix3.widen_mul]
      _ = (A.scale k).widen := by
          rw [Matrix3.mul_scale, Matrix3.scale_mul, Matrix3.change_back hS hD]
      _ = A.widen.stretch k := Matrix3.widen_scale A k
  · rw [hwiden, Matrix3.widen, Matrix3.entries_map, ErrorVector.dot_map_real]
    have hnorm := Matrix3.dot_entries ((D.mul A).mul S.inverse).canonicalScale
    rw [Matrix3.norm_canonicalScale hstart, one_pow] at hnorm
    rw [← hnorm]
    simp [Scalar.dot, ErrorVector.squares, Matrix3.entries, pow_two]

/-- The transform that a point of the solver stands for has the cost of its multiple of norm one. -/
theorem cost_canonicalScale {mode : Refinement} (hmode : mode ≠ .sampson) {H : Matrix3 Wide}
    (hregular : H.isNonSingular Matrix3.rankTolerance = true) :
    mode.cost H.canonicalScale data = mode.cost H data := by
  obtain ⟨A, rfl, hA⟩ := Matrix3.exists_regular hregular
  have hdet := hA.det_ne_zero Matrix3.tolerance_nonneg
  obtain ⟨k, hk, hscale⟩ := Matrix3.canonicalScale_proportional hdet
  rw [Matrix3.widen_canonicalScale hdet, hscale, Matrix3.widen_scale, cost_stretch _ _ hmode hk]

end Exact

end Refinement

namespace Transfer

open Refinement

/-- The refinement that belongs to residuals is neither off nor the one of first order. -/
theorem refinement_ne (direction : Transfer) :
    direction.refinement ≠ .off ∧ direction.refinement ≠ .sampson := by
  cases direction <;> decide

section Solvers

variable [Spectral Wide] (direction : Transfer)

/-- The residuals are real numbers, and the cost is the sum of their squares. -/
theorem exists_vector_eq (H : Matrix3 Wide) (data : List (Correspondence Wide)) :
    ∃ l : List ℝ, direction.refinement.vector H data = l.map real ∧
      direction.refinement.cost H data = real (ErrorVector.squares l) := by
  obtain ⟨l, hl⟩ := (direction.measures_vector H data).exists_map_real
  refine ⟨l, hl, ?_⟩
  unfold cost
  simp only [hl]
  exact ErrorVector.dot_map_real l

/-- A cost is not negative. -/
theorem zero_le_cost (H : Matrix3 Wide) (data : List (Correspondence Wide)) :
    real 0 ≤ direction.refinement.cost H data := by
  obtain ⟨l, -, hcost⟩ := direction.exists_vector_eq H data
  rw [hcost, Wide.real_le_real]
  exact ErrorVector.squares_nonneg l

variable {initial : Matrix3 Wide} {data : List (Correspondence Wide)} {F : Frame Wide}

/-- The objective is not below the cost of the transform that its point stands for. -/
theorem cost_le_of_objective_le {x : Matrix3 Wide} {y : ℝ}
    (h : Scalar.dot (direction.refinement.objective F data x)
      (direction.refinement.objective F data x) ≤ real y) :
    direction.refinement.cost (F.leave x) data ≤ real y := by
  obtain ⟨l, hl, hcost⟩ := direction.exists_vector_eq (F.leave x) data
  rw [objective, hl, Wide.dot_append_self] at h
  rw [hcost, Wide.real_le_real]
  exact Wide.le_of_add_mul_self_le h

variable [Spectral.WideExact]

/-- The objective at the start lists the residuals of the initial transform, with a zero at the end,
so that its squares add up to the cost of that transform. -/
theorem objective_start (h : direction.refinement.Asks initial data F) :
    direction.refinement.objective F data (F.enter initial).canonicalScale =
      direction.refinement.vector initial data ++ [0] := by
  obtain ⟨⟨k, hk, hleave⟩, hscale⟩ := Frame.leave_start h.frame h.regular
  unfold objective
  rw [hleave, vector_stretch initial data direction.refinement_ne.2 hk, hscale, Wide.one_eq,
    Wide.real_sub, sub_self, Wide.zero_eq]

/-- The squared length of the objective at the start is the cost. -/
theorem dot_objective_start (h : direction.refinement.Asks initial data F) :
    Scalar.dot (direction.refinement.objective F data (F.enter initial).canonicalScale)
        (direction.refinement.objective F data (F.enter initial).canonicalScale) =
      direction.refinement.cost initial data := by
  obtain ⟨l, hl, hcost⟩ := direction.exists_vector_eq initial data
  rw [objective_start direction h, hl, hcost, Wide.zero_eq, Wide.dot_append_self, Wide.real_mul,
    Wide.real_add, mul_zero, add_zero]

/-- Where a refinement asks its solver, the objective at the start is the vector of residuals of the
initial transform, followed by zero.  Every point that is not worse than the start and stands for a
non-singular transform is adopted; images at infinity make no difference. -/
theorem refine_adopts (h : direction.refinement.Asks initial data F) :
    let mode := direction.refinement
    let start := (F.enter initial).canonicalScale
    mode.objective F data start = mode.vector initial data ++ [0] ∧
      Scalar.dot (mode.objective F data start) (mode.objective F data start) =
        mode.cost initial data ∧
      ∀ x : Matrix3 Wide,
        Scalar.dot (mode.objective F data x) (mode.objective F data x) ≤
          Scalar.dot (mode.objective F data start) (mode.objective F data start) →
        ((F.destination.inverse.mul x).mul F.source).isNonSingular Matrix3.rankTolerance = true →
        ∀ (solver : Solver Wide) (converged : Bool),
          solver (mode.objective F data) start = .ok ⟨x, converged⟩ →
          mode.refine solver initial data =
            .ok ⟨((F.destination.inverse.mul x).mul F.source).canonicalScale,
              if converged then [] else [.notConverged]⟩ := by
  intro mode start
  refine ⟨objective_start direction h, dot_objective_start direction h, ?_⟩
  intro x hobjective hregular solver converged hsolver
  change (F.leave x).isNonSingular Matrix3.rankTolerance = true at hregular
  have hcost : mode.cost (F.leave x).canonicalScale data ≤ mode.cost initial data := by
    obtain ⟨y, hy⟩ := Wide.exists_eq_real (mode.isFinite_cost initial data)
    rw [dot_objective_start direction h, hy] at hobjective
    rw [cost_canonicalScale direction.refinement_ne.2 hregular, hy]
    exact cost_le_of_objective_le direction hobjective
  rw [h.refine_eq hsolver, conclude_of_cost_le converged hregular hcost]
  rfl

end Solvers

/-- From a dilation of the corners of a square, which should stay where they are, the refinement goes
back to the identity if its solver ends there. -/
theorem refine_adopts_identity :
    letI : Spectral Wide := Spectral.chosen.widen
    let data := square.map Correspondence.widen
    let F : Frame Wide := ⟨Matrix3.one, Matrix3.one⟩
    let x : Matrix3 Wide := (F.enter Matrix3.one).canonicalScale
    let solver : Solver Wide := fun _ _ => .ok ⟨x, true⟩
    let initial := (Matrix3.dilation 2).widen
    Refinement.symmetric.Asks initial data F ∧
      Scalar.dot (Refinement.symmetric.objective F data x)
          (Refinement.symmetric.objective F data x) ≤
        Refinement.symmetric.cost initial data ∧
      (F.leave x).isNonSingular Matrix3.rankTolerance = true ∧
      Refinement.symmetric.refine solver initial data =
        .ok ⟨((F.destination.inverse.mul x).mul F.source).canonicalScale, []⟩ := by
  intro data F x solver initial
  let spectral : Spectral ℝ := Spectral.chosen
  have hreal : Spectral.Exact := Spectral.chosen_exact
  let wide : Spectral Wide := spectral.widen
  have hexact : Spectral.WideExact := Spectral.widen_exact hreal
  have hframe : Frame.ofData? data = some F := by
    have hsources : Normalization.transform? (Correspondence.sources data) = some Matrix3.one := by
      have hside : Normalization.transform? (Correspondence.sources data) =
          (Normalization.transform? (Correspondence.sources square)).map Matrix3.widen :=
        Linear.transform?_side (List.cons_ne_nil _ _) fun _ => rfl
      rw [hside, transform?_square]
      rfl
    have hdestinations : Normalization.transform? (Correspondence.destinations data) =
        some Matrix3.one := hsources
    simp only [Frame.ofData?, hsources, hdestinations]
    rfl
  have hasks : ∀ {s : ℝ}, 1 ≤ s → s ^ 2 ≤ 4 →
      Refinement.symmetric.Asks (Matrix3.dilation s).widen data F := by
    intro s hone hlarge
    refine ⟨by decide, by decide, ?_, hframe⟩
    exact (Matrix3.isNonSingular_widen_iff _).mpr
      (Matrix3.isNonSingular_iff_regular.mp (Matrix3.isNonSingular_dilation hone hlarge))
  have hinitial : Refinement.symmetric.Asks initial data F := hasks one_le_two (by norm_num)
  have hone : Refinement.symmetric.Asks Matrix3.one data F := hasks le_rfl (by norm_num)
  -- The identity has no cost, and no cost is negative.
  have hcost : Refinement.symmetric.cost Matrix3.one data = real 0 := by
    have hzero : ∀ c ∈ data, symmetric.residual Matrix3.one c = .zero := by
      simp only [data, square, List.map_cons, List.map_nil, List.forall_mem_cons]
      exact ⟨residual_one _ _, residual_one _ _, residual_one _ _, residual_one _ _,
        List.forall_mem_nil _⟩
    have htotal : symmetric.total Matrix3.one data = .finite (real 0) := by
      apply Extended.sum_eq_zero
      · simp [Extended.zero, Extended.add, Extended.ofScalar, Scalar.isAbove]
      · exact List.forall_mem_map.mpr hzero
    have hfinite := (symmetric.agrees Matrix3.one data).finite fun c hc => by
      rw [hzero c hc]
      rfl
    exact (Extended.finite.inj (htotal.symm.trans hfinite)).symm
  have hx : Scalar.dot (Refinement.symmetric.objective F data x)
      (Refinement.symmetric.objective F data x) = real 0 :=
    (dot_objective_start symmetric hone).trans hcost
  have hle : Scalar.dot (Refinement.symmetric.objective F data x)
      (Refinement.symmetric.objective F data x) ≤ Refinement.symmetric.cost initial data := by
    rw [hx]
    exact zero_le_cost symmetric initial data
  have hregular : (F.leave x).isNonSingular Matrix3.rankTolerance = true := by
    obtain ⟨⟨k, hk, hleave⟩, -⟩ := Frame.leave_start hframe hone.regular
    rw [hleave]
    exact Matrix3.isNonSingular_stretch_of hk hone.regular
  obtain ⟨-, hstart, hadopts⟩ := refine_adopts symmetric hinitial
  refine ⟨hinitial, hle, hregular, hadopts x ?_ hregular solver true rfl⟩
  rw [hstart]
  exact hle

end Transfer

end Projectivity
