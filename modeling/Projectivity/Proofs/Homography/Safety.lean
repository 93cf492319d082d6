import Projectivity.Proofs.Exact.Linear
import Projectivity.Proofs.Exact.WideMatrix
import Projectivity.Proofs.Homography.Refinement

/-!
# Refinements are safe

A solver may end at any point, at special values too, or refuse a bad value.  In exact
arithmetic the refinement still returns the transform that it was given, or one that is
not singular, of norm one and of no greater cost.  Nothing that it divides by or inverts
on the way is zero or singular.
-/

set_option autoImplicit false

namespace Projectivity

open Wide (real)

namespace Normalization

/-- A normalizing transform of wide points is a real one that is not singular.  The spread of the
points is a real number, and so are all numbers that it was computed from. -/
theorem exists_eq_widen {points : List (Point Wide)} {T : Matrix3 Wide}
    (h : transform? points = some T) : ∃ S : Matrix3 ℝ, S.det ≠ 0 ∧ T = S.widen := by
  unfold transform? at h
  simp only at h
  split at h
  · rename_i hspread
    rw [Bool.and_eq_true, Bool.not_eq_true', decide_eq_false_iff_not] at hspread
    obtain ⟨hfinite, hbound⟩ := hspread
    rw [Option.some.injEq] at h
    subst h
    generalize Point.centroid points = center at hfinite hbound ⊢
    -- There is a point, and its difference from the center is finite.
    have hmean := hfinite
    unfold meanDistance Scalar.mean at hmean
    obtain ⟨hsum, hlength⟩ := Wide.isFinite_div_real _ _ hmean
    rw [List.length_map, Nat.cast_ne_zero] at hlength
    obtain ⟨p, hp⟩ := List.exists_mem_of_length_pos (Nat.pos_of_ne_zero hlength)
    rw [Wide.isFinite_sum, List.all_eq_true] at hsum
    have hsquares := Wide.isFinite_of_sqrt _ (hsum _ (List.mem_map_of_mem hp))
    simp only [Point.squaredLength, Scalar.square, Point.sub, Wide.isFinite_add, Wide.isFinite_mul,
      Wide.isFinite_sub, Bool.and_eq_true] at hsquares
    obtain ⟨cx, hx⟩ := Wide.exists_eq_real hsquares.1.1.2
    obtain ⟨cy, hy⟩ := Wide.exists_eq_real hsquares.2.1.2
    obtain ⟨d, hd⟩ := Wide.exists_eq_real hfinite
    rw [hd] at hbound ⊢
    have hd : 0 < d := lt_of_lt_of_le (Exact.decimal_pos Nat.one_pos 12) (not_lt.mp hbound)
    have hscale : 0 < Real.sqrt 2 / d := by positivity
    refine ⟨similarity (Real.sqrt 2 / d) ⟨cx, cy⟩, ?_, ?_⟩
    · simp [similarity, Matrix3.det, hd.ne']
    · rw [Wide.natCast_eq, Wide.sqrt_real (Nat.cast_nonneg 2), Wide.real_div _ hd.ne']
      simp [similarity, Matrix3.widen, Matrix3.map, hx, hy, Wide.neg_real]
  · cases h

end Normalization

namespace ErrorVector

/-- The penalty is finite. -/
theorem isFinite_penalty : Scalar.isFinite (penalty : Wide) = true := rfl

/-- Whatever is penalized is finite. -/
theorem isFinite_penalize (x : Wide) : Scalar.isFinite (penalize x) = true := by
  unfold penalize
  split
  · assumption
  · exact isFinite_penalty

/-- The differences from an image are finite, even if there is none. -/
theorem isFinite_difference (target : Point Wide) (image : Option (Point Wide)) :
    ∀ x ∈ difference target image, Scalar.isFinite x = true := by
  cases image with
  | none => simp [difference, isFinite_penalty]
  | some p => simp [difference, isFinite_penalize]

/-- The differences in the second view are finite. -/
theorem isFinite_forward (H : Matrix3 Wide) (data : List (Correspondence Wide)) :
    ∀ x ∈ forward H data, Scalar.isFinite x = true := by
  unfold forward
  rw [List.forall_mem_flatMap]
  exact fun c _ => isFinite_difference _ _

/-- The differences in the first view are finite. -/
theorem isFinite_inverse [Spectral Wide] (H : Matrix3 Wide) (data : List (Correspondence Wide)) :
    ∀ x ∈ inverse H data, Scalar.isFinite x = true := by
  unfold inverse
  split
  · simp only [List.forall_mem_flatMap]
    exact fun c _ => isFinite_difference _ _
  · intro x hx
    rw [List.eq_of_mem_replicate hx]
    exact isFinite_penalty

end ErrorVector

namespace Refinement

/-- The frame of a list of correspondences consists of real matrices that are not singular. -/
theorem Frame.exists_eq_widen {data : List (Correspondence Wide)} {F : Frame Wide}
    (hF : Frame.ofData? data = some F) :
    ∃ S D : Matrix3 ℝ, S.det ≠ 0 ∧ D.det ≠ 0 ∧ F = ⟨S.widen, D.widen⟩ := by
  simp only [Frame.ofData?, Option.bind_eq_bind, Option.bind_eq_some_iff, Option.pure_def,
    Option.some.injEq] at hF
  obtain ⟨S, hS, D, hD, rfl⟩ := hF
  obtain ⟨S, hSdet, rfl⟩ := Normalization.exists_eq_widen hS
  obtain ⟨D, hDdet, rfl⟩ := Normalization.exists_eq_widen hD
  exact ⟨S, D, hSdet, hDdet, rfl⟩

/-- A real transform in the coordinates of such a frame is a real transform. -/
theorem Frame.enter_widen {S D A : Matrix3 ℝ} (hS : S.det ≠ 0) (hD : D.det ≠ 0) (hA : A.det ≠ 0) :
    Frame.enter ⟨S.widen, D.widen⟩ A.widen = ((D.mul A).mul S.inverse).widen ∧
      ((D.mul A).mul S.inverse).det ≠ 0 := by
  refine ⟨?_, ?_⟩
  · simp only [Frame.enter]
    rw [Matrix3.widen_inverse hS, Matrix3.widen_mul, Matrix3.widen_mul]
  · rw [Matrix3.det_mul, Matrix3.det_mul]
    exact mul_ne_zero (mul_ne_zero hD hA) (Matrix3.det_inverse_ne_zero hS)

section Solvers

variable [Spectral Wide] (mode : Refinement) (H : Matrix3 Wide)
  (data : List (Correspondence Wide))

/-- Every residual of a refinement is finite, whatever the transform and the data are. -/
theorem isFinite_vector : ∀ x ∈ mode.vector H data, Scalar.isFinite x = true := by
  have hforward := ErrorVector.isFinite_forward H data
  have hinverse := ErrorVector.isFinite_inverse H data
  cases mode with
  | off => exact hforward
  | forward => exact hforward
  | inverse => exact hinverse
  | symmetric => exact List.forall_mem_append.mpr ⟨hforward, hinverse⟩
  | sampson =>
    show ∀ x ∈ Sampson.vector H data, Scalar.isFinite x = true
    unfold Sampson.vector
    rw [List.forall_mem_flatMap]
    intro c _
    split
    · rw [List.forall_mem_map]
      exact fun x _ => ErrorVector.isFinite_penalize x
    · intro x hx
      rw [List.eq_of_mem_replicate hx]
      exact ErrorVector.isFinite_penalty

/-- So a cost is a real number. -/
theorem isFinite_cost : Scalar.isFinite (mode.cost H data) = true := by
  unfold cost Scalar.dot
  simp only
  rw [Wide.isFinite_sum, List.all_eq_true, List.zipWith_self]
  intro y hy
  obtain ⟨x, hx, rfl⟩ := List.mem_map.mp hy
  rw [Wide.isFinite_mul, mode.isFinite_vector H data x hx]
  rfl

/-- A cost can be compared with itself. -/
theorem cost_le_self : mode.cost H data ≤ mode.cost H data := by
  obtain ⟨c, hc⟩ := Wide.exists_eq_real (mode.isFinite_cost H data)
  rw [hc, Wide.real_le_real]

variable [Spectral.WideExact]

/-- What is inverted and divided by on the way to the solver: both normalizations have inverses, and
the start is not zero, so that it can be scaled to norm one. -/
structure Frame.WellPosed (F : Frame Wide) (initial : Matrix3 Wide) : Prop where
  source : F.source.mul F.source.inverse = Matrix3.one
  destination : F.destination.mul F.destination.inverse = Matrix3.one
  start : (F.enter initial).canonicalScale.norm = 1

/-- A transform that may stand in the place of another one. -/
structure Safe (initial refined : Matrix3 Wide) : Prop where
  kept_or_scaled : refined = initial ∨
    refined.isNonSingular Matrix3.rankTolerance = true ∧ refined.norm = 1 ∧ 0 ≤ refined.m33
  cost_le : mode.cost refined data ≤ mode.cost initial data

variable {mode H data} {initial : Matrix3 Wide}

/-- The frame of a list of correspondences is well posed for a transform that is not singular. -/
theorem Frame.wellPosed_of_ofData? {F : Frame Wide} (hF : Frame.ofData? data = some F)
    (hinitial : initial.isNonSingular Matrix3.rankTolerance = true) : F.WellPosed initial := by
  obtain ⟨S, D, hS, hD, rfl⟩ := Frame.exists_eq_widen hF
  obtain ⟨A, rfl, hA⟩ := Matrix3.exists_regular hinitial
  have hAdet := hA.det_ne_zero (Exact.decimal_pos Nat.one_pos 12).le
  obtain ⟨henter, hstart⟩ := Frame.enter_widen hS hD hAdet
  refine ⟨?_, ?_, ?_⟩
  · rw [Matrix3.widen_inverse hS, Matrix3.widen_mul, Matrix3.mul_inverse hS]
    exact Matrix3.widen_one
  · rw [Matrix3.widen_inverse hD, Matrix3.widen_mul, Matrix3.mul_inverse hD]
    exact Matrix3.widen_one
  · rw [henter, Matrix3.widen_canonicalScale hstart, Matrix3.widen_norm,
      Matrix3.norm_canonicalScale hstart]
    rfl

/-- An improvement is not singular, is of norm one and has a last entry that is not negative. -/
theorem Improves.safe {refined : Matrix3 Wide} (h : mode.Improves data initial refined) :
    mode.Safe data initial refined := by
  obtain ⟨H, hregular, rfl⟩ := h.scaled
  obtain ⟨A, rfl, hA⟩ := Matrix3.exists_regular hregular
  have hdet := hA.det_ne_zero (Exact.decimal_pos Nat.one_pos 12).le
  have hcost := h.cost_le
  rw [Matrix3.widen_canonicalScale hdet] at hcost ⊢
  refine ⟨Or.inr ⟨?_, ?_, ?_⟩, hcost⟩
  · obtain ⟨c, hc, hscale⟩ := Matrix3.canonicalScale_proportional hdet
    rw [hscale]
    exact (Matrix3.isNonSingular_widen_iff _).mpr (hA.scale hc)
  · rw [Matrix3.widen_norm, Matrix3.norm_canonicalScale hdet]
    rfl
  · exact A.canonicalScale_m33_nonneg

/-- A refinement by a solver that refuses nothing but bad values returns a transform that is safe in
the place of its start, whatever point the solver ends at. -/
theorem refine_safe {solver : Solver Wide} (hsolver : ∀ objective start cause,
      solver objective start = .error cause → cause.kind = .badValue) :
    (∃ outcome, mode.refine solver initial data = .ok outcome ∧
        mode.Safe data initial outcome.matrix) ∧
      (initial.isNonSingular Matrix3.rankTolerance = true →
        ∀ F, Frame.ofData? data = some F → F.WellPosed initial) := by
  refine ⟨?_, fun hregular F hF => Frame.wellPosed_of_ofData? hF hregular⟩
  have hwhole : ∀ cause, ¬ mode.BreaksOff solver initial data cause := by
    intro cause hbroken
    obtain ⟨F, -, hrefused⟩ := hbroken.refused
    exact hbroken.kind_ne (hsolver _ _ _ hrefused)
  obtain ⟨outcome, hrefine, hsame | himproves⟩ := mode.exists_refine_eq_ok initial data hwhole
  · refine ⟨outcome, hrefine, Or.inl hsame, ?_⟩
    rw [hsame]
    exact mode.cost_le_self initial data
  · exact ⟨outcome, hrefine, himproves.safe⟩

end Solvers

/-- The corners of a square, each of them matched with itself. -/
def corners : List (Correspondence Wide) :=
  [⟨⟨real 1, real 1⟩, ⟨real 1, real 1⟩⟩, ⟨⟨real 1, real (-1)⟩, ⟨real 1, real (-1)⟩⟩,
    ⟨⟨real (-1), real 1⟩, ⟨real (-1), real 1⟩⟩, ⟨⟨real (-1), real (-1)⟩, ⟨real (-1), real (-1)⟩⟩]

/-- A solver that ends at special values does no harm. -/
theorem refine_safe_of_special_point :
    letI : Spectral Wide := Spectral.chosen.widen
    let solver : Solver Wide := fun _ _ => .ok ⟨⟨.above, .below, .undefined, real 0, real 1,
      real 0, .above, real 0, .undefined⟩, false⟩
    (∀ objective start cause, solver objective start = .error cause → cause.kind = .badValue) ∧
      ∃ outcome, symmetric.refine solver Matrix3.one corners = .ok outcome ∧
        symmetric.Safe corners Matrix3.one outcome.matrix := by
  intro solver
  let spectral : Spectral Wide := Spectral.chosen.widen
  have hexact : Spectral.WideExact := Spectral.widen_exact Spectral.chosen_exact
  have hsolver : ∀ objective start cause,
      solver objective start = .error cause → cause.kind = .badValue := by
    intro objective start cause herror
    cases herror
  exact ⟨hsolver, (refine_safe hsolver).1⟩

end Refinement

end Projectivity
