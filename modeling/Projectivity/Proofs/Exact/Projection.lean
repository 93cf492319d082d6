import Projectivity.Homography.Normalization
import Projectivity.Homography.Residual
import Projectivity.Proofs.Exact.Matrix

/-!
# Exact projection

A transform carries a correspondence if the image of its source is its destination in
homogeneous coordinates.  That is a linear condition on the transform, so it does not
depend on the factor of the transform, and it moves with the coordinates of the two
views.
-/

set_option autoImplicit false

namespace Projectivity

/-- The homogeneous coordinates of a point of the plane. -/
def Point.lift (p : Point ℝ) : Homogeneous ℝ := ⟨p.x, p.y, 1⟩

namespace Matrix3

/-- A transform carries a correspondence if it maps the source to a multiple of the
destination. -/
def Carries (H : Matrix3 ℝ) (c : Correspondence ℝ) : Prop :=
  H.apply c.source = c.destination.lift.scale (H.apply c.source).w

variable {H K : Matrix3 ℝ} {c : Correspondence ℝ} {tolerance : ℝ}

/-- To carry a correspondence is to solve two equations. -/
theorem carries_iff : H.Carries c ↔
    (H.apply c.source).x = (H.apply c.source).w * c.destination.x ∧
      (H.apply c.source).y = (H.apply c.source).w * c.destination.y := by
  unfold Carries
  generalize H.apply c.source = h
  obtain ⟨x, y, w⟩ := h
  simp only [Homogeneous.scale, Point.lift, Homogeneous.mk.injEq, mul_one, and_true]

/-- A transform that maps the source to any multiple of the destination carries the
correspondence. -/
theorem carries_of_apply_eq {k : ℝ} (h : H.apply c.source = c.destination.lift.scale k) :
    H.Carries c := by
  unfold Carries
  rw [h]
  simp only [Homogeneous.scale, Point.lift, mul_one]

/-- What a transform carries is carried by its multiples. -/
theorem Carries.of_proportional (h : H.Carries c) (hprop : K.Proportional H) : K.Carries c := by
  obtain ⟨k, -, rfl⟩ := hprop
  unfold Carries at h
  refine carries_of_apply_eq (k := k * (H.apply c.source).w) ?_
  unfold apply at h ⊢
  rw [scale_act, h]
  simp only [Homogeneous.scale, Point.lift, Homogeneous.mk.injEq]
  refine ⟨?_, ?_, ?_⟩ <;> ring

/-- A point has an image exactly if its last coordinate is not small, and then the image is the
quotient of the coordinates. -/
theorem project?_eq_some_iff {p q : Point ℝ} : H.project? tolerance p = some q ↔
    tolerance * H.norm < |(H.apply p).w| ∧ q = (H.apply p).dehomogenize := by
  unfold project?
  simp only [Exact.abs_eq]
  split
  · rename_i hfinite
    simp only [Option.some.injEq, hfinite, true_and, eq_comm]
  · rename_i hinfinite
    simp only [reduceCtorEq, hinfinite, false_and]

/-- A correspondence that is projected exactly is carried. -/
theorem carries_of_project (htolerance : 0 ≤ tolerance)
    (h : H.project? tolerance c.source = some c.destination) : H.Carries c := by
  obtain ⟨hfinite, himage⟩ := project?_eq_some_iff.mp h
  have hw : (H.apply c.source).w ≠ 0 := by
    intro hzero
    rw [hzero, abs_zero] at hfinite
    exact absurd hfinite (not_lt.mpr (mul_nonneg htolerance H.norm_nonneg))
  rw [carries_iff, himage]
  simp only [Homogeneous.dehomogenize]
  constructor <;> field_simp

/-- The image of a point does not depend on the factor of the transform, and neither does the test
for infinity. -/
theorem Proportional.project? (hprop : K.Proportional H) (p : Point ℝ) :
    K.project? tolerance p = H.project? tolerance p := by
  obtain ⟨k, hk, rfl⟩ := hprop
  have hpos : 0 < |k| := abs_pos.mpr hk
  have hbound : tolerance * (H.scale k).norm < |((H.scale k).apply p).w| ↔
      tolerance * H.norm < |(H.apply p).w| := by
    unfold apply
    rw [norm_scale, scale_act]
    simp only [Homogeneous.scale, abs_mul]
    rw [mul_left_comm]
    exact mul_lt_mul_iff_right₀ hpos
  have hpoint : ((H.scale k).apply p).dehomogenize = (H.apply p).dehomogenize := by
    unfold apply
    rw [scale_act]
    simp only [Homogeneous.scale, Homogeneous.dehomogenize, mul_div_mul_left _ _ hk]
  unfold Matrix3.project?
  simp only [Exact.abs_eq, hbound, hpoint]

/-- A transform carries a correspondence if its inverse carries the swapped one. -/
theorem carries_of_inverse (hdet : H.det ≠ 0) (h : H.inverse.Carries c.swap) : H.Carries c := by
  unfold Carries apply at h
  generalize (H.inverse.act ⟨c.swap.source.x, c.swap.source.y, 1⟩).w = w at h
  have hback : c.destination.lift = (H.apply c.source).scale w := by
    calc c.destination.lift = H.act (H.inverse.act c.destination.lift) := by
          rw [← act_mul, mul_inverse hdet, one_act]
      _ = H.act (c.source.lift.scale w) := congrArg H.act h
      _ = (H.apply c.source).scale w := H.act_scale w c.source.lift
  have hw : w ≠ 0 := by
    rintro rfl
    have hone := congrArg Homogeneous.w hback
    simp [Point.lift, Homogeneous.scale] at hone
  refine carries_of_apply_eq (k := w⁻¹) ?_
  rw [hback]
  simp only [Homogeneous.scale, inv_mul_cancel_left₀ hw]

/-- Changing the coordinates of the two views changes the transforms that carry a correspondence
accordingly. -/
theorem carries_change_iff {S D : Matrix3 ℝ} {d : Correspondence ℝ} (hS : S.det ≠ 0)
    (hD : D.det ≠ 0) (hsource : S.apply c.source = d.source.lift)
    (hdestination : D.apply c.destination = d.destination.lift) :
    ((D.mul H).mul S.inverse).Carries d ↔ H.Carries c := by
  have himage : ((D.mul H).mul S.inverse).apply d.source = D.act (H.apply c.source) := by
    calc ((D.mul H).mul S.inverse).apply d.source
        = (D.mul H).act (S.inverse.act (S.apply c.source)) := by
          rw [hsource, ← act_mul]
          rfl
      _ = D.act (H.apply c.source) := by
          unfold apply
          rw [act_mul, ← act_mul S.inverse, inverse_mul hS, one_act]
  have hscaled : ∀ k, d.destination.lift.scale k = D.act (c.destination.lift.scale k) := by
    intro k
    rw [act_scale, ← hdestination]
    rfl
  constructor
  · intro h
    unfold Carries at h
    rw [himage, hscaled] at h
    have hback := congrArg D.inverse.act h
    rw [← act_mul, ← act_mul, inverse_mul hD, one_act, one_act] at hback
    exact carries_of_apply_eq hback
  · intro h
    refine carries_of_apply_eq (k := (H.apply c.source).w) ?_
    rw [himage, hscaled]
    exact congrArg D.act h

end Matrix3

end Projectivity
