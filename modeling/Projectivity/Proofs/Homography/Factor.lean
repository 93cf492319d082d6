import Projectivity.Proofs.Exact.WideFactor
import Projectivity.Proofs.Homography.Safety

/-!
# Factors of a transform

A homography is a matrix up to a factor other than zero.  Every test on the way to an
image, a residual or a cost is relative to the matrix, so that none of them depends on
the factor, also where a point is at infinity or the matrix counts as singular.  A
refinement starts its solver at the same point for every positive factor, so that it
returns the same transform, or keeps the multiple that it was given.
-/

set_option autoImplicit false

namespace Projectivity

open Wide (real)

variable {k : ℝ} (H : Matrix3 Wide)

/-- The tolerances of the tests for infinity and for singularity are not negative. -/
theorem Matrix3.tolerance_nonneg : (0 : ℝ) ≤ Scalar.decimal 1 12 :=
  (Exact.decimal_pos Nat.one_pos 12).le

section Errors

/-- A factor of the transform does not change the error against the second view. -/
theorem Transfer.forwardError_stretch (hk : k ≠ 0) (c : Correspondence Wide) :
    Transfer.forwardError (H.stretch k) c = Transfer.forwardError H c :=
  congrArg (Transfer.squaredError · c.destination)
    (H.project?_stretch hk Matrix3.tolerance_nonneg c.source)

/-- A factor of the transform does not change the differences in the second view. -/
theorem ErrorVector.forward_stretch (hk : k ≠ 0) (data : List (Correspondence Wide)) :
    ErrorVector.forward (H.stretch k) data = ErrorVector.forward H data := by
  unfold ErrorVector.forward
  refine List.flatMap_congr fun c _ => ?_
  exact congrArg (ErrorVector.difference c.destination)
    (H.project?_stretch hk Matrix3.tolerance_nonneg c.source)

variable [Spectral Wide] [Spectral.WideExact]

/-- A factor of the transform does not change the projections of its inverse. -/
theorem Matrix3.inverse_project?_stretch (hk : k ≠ 0)
    (h : H.isNonSingular Matrix3.rankTolerance = true) (p : Point Wide) :
    (H.stretch k).inverse.project? Matrix3.infinityTolerance p =
      H.inverse.project? Matrix3.infinityTolerance p := by
  rw [Matrix3.inverse_stretch hk Matrix3.tolerance_nonneg h]
  exact H.inverse.project?_stretch (inv_ne_zero hk) Matrix3.tolerance_nonneg p

/-- A factor of the transform does not change the error against the first view. -/
theorem Transfer.inverseError_stretch (hk : k ≠ 0) (c : Correspondence Wide) :
    Transfer.inverseError (H.stretch k) c = Transfer.inverseError H c := by
  have hsame : (H.stretch k).isNonSingular Matrix3.rankTolerance =
      H.isNonSingular Matrix3.rankTolerance := H.isNonSingular_stretch hk
  unfold Transfer.inverseError
  rw [hsame]
  split
  · rename_i hregular
    rw [H.inverse_project?_stretch hk hregular]
  · rfl

/-- A factor of the transform does not change a residual. -/
theorem Transfer.residual_stretch (direction : Transfer) (hk : k ≠ 0) (c : Correspondence Wide) :
    direction.residual (H.stretch k) c = direction.residual H c := by
  cases direction with
  | forward => exact Transfer.forwardError_stretch H hk c
  | inverse => exact Transfer.inverseError_stretch H hk c
  | symmetric =>
    unfold Transfer.residual
    rw [Transfer.forwardError_stretch H hk c, Transfer.inverseError_stretch H hk c]

/-- A factor of the transform does not change the differences in the first view. -/
theorem ErrorVector.inverse_stretch (hk : k ≠ 0) (data : List (Correspondence Wide)) :
    ErrorVector.inverse (H.stretch k) data = ErrorVector.inverse H data := by
  have hsame : (H.stretch k).isNonSingular Matrix3.rankTolerance =
      H.isNonSingular Matrix3.rankTolerance := H.isNonSingular_stretch hk
  unfold ErrorVector.inverse
  rw [hsame]
  split
  · rename_i hregular
    simp only [H.inverse_project?_stretch hk hregular]
  · rfl

end Errors

namespace Refinement

/-- An outcome with a multiple of its matrix. -/
noncomputable def Outcome.stretch (k : ℝ) (o : Outcome Wide) : Outcome Wide :=
  ⟨o.matrix.stretch k, o.notices⟩

/-- The factor one does not change an outcome. -/
theorem Outcome.stretch_one (o : Outcome Wide) : o.stretch 1 = o := by
  rw [Outcome.stretch, Matrix3.stretch_one]

variable [Spectral Wide] [Spectral.WideExact] (data : List (Correspondence Wide))
variable {mode : Refinement}

/-- In all modes but that of Sampson the residuals do not depend on the factor. -/
theorem vector_stretch (hmode : mode ≠ .sampson) (hk : k ≠ 0) :
    mode.vector (H.stretch k) data = mode.vector H data := by
  cases mode with
  | off => exact ErrorVector.forward_stretch H hk data
  | forward => exact ErrorVector.forward_stretch H hk data
  | inverse => exact ErrorVector.inverse_stretch H hk data
  | symmetric =>
    unfold vector ErrorVector.symmetric
    rw [ErrorVector.forward_stretch H hk data, ErrorVector.inverse_stretch H hk data]
  | sampson => exact absurd rfl hmode

/-- A factor of the transform does not change a cost, except for the one of first order. -/
theorem cost_stretch (hmode : mode ≠ .sampson) (hk : k ≠ 0) :
    mode.cost (H.stretch k) data = mode.cost H data := by
  unfold cost
  rw [vector_stretch H data hmode hk]

variable {H data}

/-- The solver starts at the same point for every positive factor. -/
theorem Frame.start_stretch (hk : 0 < k) {F : Frame Wide} (hF : Frame.ofData? data = some F)
    (hregular : H.isNonSingular Matrix3.rankTolerance = true) :
    (F.enter (H.stretch k)).canonicalScale = (F.enter H).canonicalScale := by
  obtain ⟨S, D, hS, hD, rfl⟩ := Frame.exists_eq_widen hF
  obtain ⟨A, rfl, hA⟩ := Matrix3.exists_regular hregular
  have hdet := hA.det_ne_zero Matrix3.tolerance_nonneg
  have hscaled := (hA.scale hk.ne').det_ne_zero Matrix3.tolerance_nonneg
  obtain ⟨henter, hstart⟩ := Frame.enter_widen hS hD hdet
  obtain ⟨hother, hmultiple⟩ := Frame.enter_widen hS hD hscaled
  have hfactor : (D.mul (A.scale k)).mul S.inverse = ((D.mul A).mul S.inverse).scale k := by
    rw [Matrix3.mul_scale, Matrix3.scale_mul]
  rw [← Matrix3.widen_scale, henter, hother, Matrix3.widen_canonicalScale hstart,
    Matrix3.widen_canonicalScale hmultiple, hfactor, Matrix3.canonicalScale_scale hk hstart]

/-- The point of the solver is adopted for a multiple if it is adopted at all, since the costs that
are compared are the same. -/
theorem conclude_stretch (hmode : mode ≠ .sampson) (hk : k ≠ 0) (F : Frame Wide)
    (solution : Solution Wide) : ∃ j, (j = 1 ∨ j = k) ∧
      mode.conclude (H.stretch k) data F solution =
        (mode.conclude H data F solution).stretch j := by
  unfold conclude
  simp only [cost_stretch H data hmode hk]
  split
  · split
    · exact ⟨1, Or.inl rfl, (Outcome.stretch_one _).symm⟩
    · exact ⟨k, Or.inr rfl, rfl⟩
  · exact ⟨k, Or.inr rfl, rfl⟩

variable (H data)

/-- A refinement of a multiple of a transform ends as that of the transform, with the same matrix or
with the multiple of it. -/
theorem refine_stretch (hmode : mode ≠ .sampson) (hk : 0 < k) (solver : Solver Wide) :
    ∃ j, (j = 1 ∨ j = k) ∧ mode.refine solver (H.stretch k) data =
      (mode.refine solver H data).map (Outcome.stretch j) := by
  have hsame : (H.stretch k).isNonSingular Matrix3.rankTolerance =
      H.isNonSingular Matrix3.rankTolerance := H.isNonSingular_stretch hk.ne'
  unfold refine
  rw [hsame]
  split
  · exact ⟨k, Or.inr rfl, rfl⟩
  rename_i hasked
  simp only [Bool.or_eq_true, Bool.not_eq_true', not_or, Bool.not_eq_false] at hasked
  cases hF : Frame.ofData? data with
  | none => exact ⟨k, Or.inr rfl, rfl⟩
  | some F =>
    simp only [Frame.start_stretch hk hF hasked.2]
    cases solver (mode.objective F data) (F.enter H).canonicalScale with
    | ok solution =>
      obtain ⟨j, hj, hconclude⟩ := conclude_stretch hmode hk.ne' F solution
      exact ⟨j, hj, congrArg Except.ok hconclude⟩
    | error cause =>
      refine ⟨k, Or.inr rfl, ?_⟩
      simp only
      split <;> rfl

end Refinement

/-- Transforms with the same images, the same verdict on whether they are singular, and the same
residuals and costs in all modes but that of Sampson. -/
structure Matrix3.Indistinguishable [Spectral Wide] (K H : Matrix3 Wide)
    (data : List (Correspondence Wide)) : Prop where
  images : ∀ tolerance, 0 ≤ tolerance → ∀ points,
    K.projectAll (real tolerance) points = H.projectAll (real tolerance) points
  regular : ∀ tolerance, K.isNonSingular (real tolerance) = H.isNonSingular (real tolerance)
  residuals : ∀ direction : Transfer,
    data.map (direction.residual K) = data.map (direction.residual H)
  cost : ∀ mode : Refinement, mode ≠ .sampson → mode.cost K data = mode.cost H data

/-- A multiple of a transform cannot be told from it, and for a positive factor a refinement of the
multiple ends as that of the transform, up to the factor of the matrix. -/
theorem Matrix3.stretch_indistinguishable [Spectral Wide] [Spectral.WideExact]
    (data : List (Correspondence Wide)) (hk : k ≠ 0) :
    (H.stretch k).Indistinguishable H data ∧
      (0 < k → ∀ mode : Refinement, mode ≠ .sampson → ∀ solver, ∃ j, (j = 1 ∨ j = k) ∧
        mode.refine solver (H.stretch k) data =
          (mode.refine solver H data).map (Refinement.Outcome.stretch j)) := by
  refine ⟨⟨?_, ?_, ?_, ?_⟩, ?_⟩
  · intro tolerance ht points
    exact List.map_congr_left fun p _ => H.project?_stretch hk ht p
  · exact fun _ => H.isNonSingular_stretch hk
  · exact fun direction => List.map_congr_left fun c _ => direction.residual_stretch H hk c
  · exact fun _ hmode => Refinement.cost_stretch H data hmode hk
  · exact fun hpos _ hmode solver => Refinement.refine_stretch H data hmode hpos solver

/-- Twice the identity cannot be told from the identity, also by a refinement whose solver ends at
special values. -/
theorem Matrix3.stretch_indistinguishable_doubled :
    letI : Spectral Wide := Spectral.chosen.widen
    let solver : Refinement.Solver Wide := fun _ _ => .ok ⟨⟨.above, .below, .undefined, real 0,
      real 1, real 0, .above, real 0, .undefined⟩, false⟩
    (0 : ℝ) < 2 ∧ (one.stretch 2).Indistinguishable one Refinement.corners ∧
      Refinement.symmetric ≠ .sampson ∧ ∃ j : ℝ, (j = 1 ∨ j = 2) ∧
        Refinement.symmetric.refine solver (one.stretch 2) Refinement.corners =
          (Refinement.symmetric.refine solver one Refinement.corners).map
            (Refinement.Outcome.stretch j) := by
  intro solver
  let spectral : Spectral Wide := Spectral.chosen.widen
  have hexact : Spectral.WideExact := Spectral.widen_exact Spectral.chosen_exact
  obtain ⟨hsame, hrefine⟩ :=
    stretch_indistinguishable one Refinement.corners (two_ne_zero : (2 : ℝ) ≠ 0)
  have hmode : Refinement.symmetric ≠ .sampson := by decide
  exact ⟨two_pos, hsame, hmode, hrefine two_pos _ hmode solver⟩

end Projectivity
