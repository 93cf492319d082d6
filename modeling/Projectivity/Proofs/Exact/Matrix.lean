import Mathlib.Tactic.FieldSimp
import Mathlib.Tactic.Linarith
import Mathlib.Tactic.LinearCombination
import Mathlib.Tactic.Positivity
import Mathlib.Tactic.Ring
import Projectivity.Matrix.Basic
import Projectivity.Proofs.Exact.Scalar

/-!
# Exact matrices of the projective plane

Over exact scalars the matrices of the projective plane have the algebra that their
names promise.  A transform matters up to a factor only, and every operation on
transforms respects that.
-/

set_option autoImplicit false

namespace Projectivity

/-- Homogeneous coordinates multiplied by a factor. -/
def Homogeneous.scale (c : ℝ) (h : Homogeneous ℝ) : Homogeneous ℝ := ⟨c * h.x, c * h.y, c * h.w⟩

namespace Matrix3

/-- A matrix multiplied by a factor. -/
def scale (c : ℝ) (A : Matrix3 ℝ) : Matrix3 ℝ := A.map (c * ·)

/-- Matrices that are the same transform: they differ by a factor other than zero. -/
def Proportional (A B : Matrix3 ℝ) : Prop := ∃ c : ℝ, c ≠ 0 ∧ A = B.scale c

variable (A B C : Matrix3 ℝ) (c d : ℝ) (h : Homogeneous ℝ)

section Algebra

/-- A product acts as its factors one after the other. -/
theorem act_mul : (A.mul B).act h = A.act (B.act h) := by
  simp only [mul, act, Homogeneous.mk.injEq]
  refine ⟨?_, ?_, ?_⟩ <;> ring

/-- The identity leaves all vectors where they are. -/
theorem one_act : one.act h = h := by
  simp [one, act]

/-- A factor of a matrix is a factor of the image. -/
theorem scale_act : (A.scale c).act h = (A.act h).scale c := by
  simp only [scale, map, act, Homogeneous.scale, Homogeneous.mk.injEq]
  refine ⟨?_, ?_, ?_⟩ <;> ring

/-- A factor of a vector is a factor of its image. -/
theorem act_scale : A.act (h.scale c) = (A.act h).scale c := by
  simp only [act, Homogeneous.scale, Homogeneous.mk.injEq]
  refine ⟨?_, ?_, ?_⟩ <;> ring

/-- Products of three matrices do not depend on the brackets. -/
protected theorem mul_assoc : (A.mul B).mul C = A.mul (B.mul C) := by
  simp only [mul, Matrix3.mk.injEq]
  refine ⟨?_, ?_, ?_, ?_, ?_, ?_, ?_, ?_, ?_⟩ <;> ring

/-- The identity on the left changes nothing. -/
@[simp] protected theorem one_mul : one.mul A = A := by
  simp [one, mul]

/-- The identity on the right changes nothing. -/
@[simp] protected theorem mul_one : A.mul one = A := by
  simp [one, mul]

/-- A factor of the first matrix is a factor of the product. -/
theorem scale_mul : (A.scale c).mul B = (A.mul B).scale c := by
  simp only [scale, map, mul, Matrix3.mk.injEq]
  refine ⟨?_, ?_, ?_, ?_, ?_, ?_, ?_, ?_, ?_⟩ <;> ring

/-- A factor of the second matrix is a factor of the product. -/
theorem mul_scale : A.mul (B.scale c) = (A.mul B).scale c := by
  simp only [scale, map, mul, Matrix3.mk.injEq]
  refine ⟨?_, ?_, ?_, ?_, ?_, ?_, ?_, ?_, ?_⟩ <;> ring

/-- Two factors are one, their product. -/
theorem scale_scale : (A.scale d).scale c = A.scale (c * d) := by
  simp only [scale, map, Matrix3.mk.injEq]
  refine ⟨?_, ?_, ?_, ?_, ?_, ?_, ?_, ?_, ?_⟩ <;> ring

/-- The factor one changes nothing. -/
@[simp] theorem one_scale : A.scale 1 = A := by
  simp [scale, map]

/-- A division of all entries is a product with the reciprocal. -/
theorem scaleDown_eq : A.scaleDown c = A.scale c⁻¹ := by
  simp only [scaleDown, scale, map, div_eq_inv_mul]

/-- A change of all signs is a product with minus one. -/
theorem neg_eq : A.map (- ·) = A.scale (-1) := by
  simp only [scale, map, neg_one_mul]

/-- The determinant of a product is the product of the determinants. -/
theorem det_mul : (A.mul B).det = A.det * B.det := by
  simp only [mul, det]
  ring

/-- A factor counts three times in the determinant. -/
theorem det_scale : (A.scale c).det = c ^ 3 * A.det := by
  simp only [scale, map, det]
  ring

/-- The determinant of the identity is one. -/
@[simp] theorem det_one : (one : Matrix3 ℝ).det = 1 := by
  simp [one, det]

end Algebra

section Inverse

/-- A matrix all of whose entries are zero is singular. -/
theorem det_eq_zero_of_entries (hzero : ∀ x ∈ A.entries, x = 0) : A.det = 0 := by
  simp only [entries, List.forall_mem_cons] at hzero
  obtain ⟨h11, h12, h13, -⟩ := hzero
  simp only [det, h11, h12, h13]
  ring

/-- The largest entry of a non-singular matrix is positive. -/
theorem largestAbs_pos_of_det_ne_zero (hdet : A.det ≠ 0) : 0 < Scalar.largestAbs A.entries := by
  by_contra hsize
  apply hdet
  apply det_eq_zero_of_entries
  intro x hx
  have hle := Exact.abs_le_largestAbs hx
  exact abs_eq_zero.mp (le_antisymm (le_trans hle (not_lt.mp hsize)) (abs_nonneg x))

/-- The inverse is the adjugate divided by the determinant.  The size of the entries cancels. -/
theorem inverse_eq (hdet : A.det ≠ 0) : A.inverse = A.adjugate.scale A.det⁻¹ := by
  -- The entries are divided by the largest of them before the adjugate is taken.
  have hsize := (A.largestAbs_pos_of_det_ne_zero hdet).ne'
  unfold inverse
  simp only [scaleDown_eq]
  generalize Scalar.largestAbs A.entries = s at hsize
  have hadjugate : (A.scale s⁻¹).adjugate = A.adjugate.scale (s⁻¹ ^ 2) := by
    simp only [adjugate, scale, map, Matrix3.mk.injEq]
    refine ⟨?_, ?_, ?_, ?_, ?_, ?_, ?_, ?_, ?_⟩ <;> ring
  rw [hadjugate, det_scale, scale_scale, scale_scale]
  congr 1
  field_simp

/-- A matrix times its adjugate is the determinant times the identity. -/
theorem mul_adjugate : A.mul A.adjugate = one.scale A.det := by
  simp only [scale, map, mul, adjugate, one, det, Matrix3.mk.injEq]
  refine ⟨?_, ?_, ?_, ?_, ?_, ?_, ?_, ?_, ?_⟩ <;> ring

/-- The adjugate times the matrix is the determinant times the identity. -/
theorem adjugate_mul : A.adjugate.mul A = one.scale A.det := by
  simp only [scale, map, mul, adjugate, one, det, Matrix3.mk.injEq]
  refine ⟨?_, ?_, ?_, ?_, ?_, ?_, ?_, ?_, ?_⟩ <;> ring

variable {A B C c}

/-- The inverse of a matrix that is not singular is an inverse on the right. -/
theorem mul_inverse (hdet : A.det ≠ 0) : A.mul A.inverse = one := by
  rw [A.inverse_eq hdet, mul_scale, mul_adjugate, scale_scale, inv_mul_cancel₀ hdet, one_scale]

/-- The inverse of a matrix that is not singular is an inverse on the left. -/
theorem inverse_mul (hdet : A.det ≠ 0) : A.inverse.mul A = one := by
  rw [A.inverse_eq hdet, scale_mul, adjugate_mul, scale_scale, inv_mul_cancel₀ hdet, one_scale]

/-- There is only one inverse on the right. -/
theorem eq_inverse_of_mul_eq_one (hdet : A.det ≠ 0) (h : A.mul B = one) : B = A.inverse := by
  calc B = (A.inverse.mul A).mul B := by rw [inverse_mul hdet, Matrix3.one_mul]
    _ = A.inverse := by rw [Matrix3.mul_assoc, h, Matrix3.mul_one]

/-- The identity is its own inverse. -/
@[simp] theorem inverse_one : one.inverse = (one : Matrix3 ℝ) :=
  (eq_inverse_of_mul_eq_one (by simp) (by simp)).symm

/-- An inverse is not singular. -/
theorem det_inverse_ne_zero (hdet : A.det ≠ 0) : A.inverse.det ≠ 0 := by
  have hproduct := congrArg det (mul_inverse hdet)
  rw [det_mul, det_one] at hproduct
  exact right_ne_zero_of_mul_eq_one hproduct

/-- The inverse of the inverse is the matrix. -/
theorem inverse_inverse (hdet : A.det ≠ 0) : A.inverse.inverse = A :=
  (eq_inverse_of_mul_eq_one (det_inverse_ne_zero hdet) (inverse_mul hdet)).symm

/-- The inverse of a product is the product of the inverses in reverse order. -/
theorem inverse_of_mul (hA : A.det ≠ 0) (hB : B.det ≠ 0) :
    (A.mul B).inverse = B.inverse.mul A.inverse := by
  refine (eq_inverse_of_mul_eq_one ?_ ?_).symm
  · rw [det_mul]
    exact mul_ne_zero hA hB
  · rw [Matrix3.mul_assoc, ← Matrix3.mul_assoc B, mul_inverse hB, Matrix3.one_mul, mul_inverse hA]

/-- A transform that is moved to other coordinates of the two views and back is what it was. -/
theorem change_back (hA : A.det ≠ 0) (hB : B.det ≠ 0) :
    (B.inverse.mul ((B.mul C).mul A.inverse)).mul A = C := by
  rw [Matrix3.mul_assoc B, ← Matrix3.mul_assoc B.inverse, inverse_mul hB, Matrix3.one_mul,
    Matrix3.mul_assoc, inverse_mul hA, Matrix3.mul_one]

/-- A change of coordinates and back again leaves a matrix as it is. -/
theorem change_there (hA : A.det ≠ 0) (hB : B.det ≠ 0) :
    (B.mul ((B.inverse.mul C).mul A)).mul A.inverse = C := by
  rw [Matrix3.mul_assoc B.inverse, ← Matrix3.mul_assoc B, mul_inverse hB, Matrix3.one_mul,
    Matrix3.mul_assoc, mul_inverse hA, Matrix3.mul_one]

/-- A factor on the right is undone by its inverse. -/
theorem mul_mul_inverse (hB : B.det ≠ 0) : (A.mul B).mul B.inverse = A := by
  rw [Matrix3.mul_assoc, mul_inverse hB, Matrix3.mul_one]

/-- A transform between coordinates that are changed in both views, in the coordinates that they are
changed to. -/
theorem change_of_changed {S D : Matrix3 ℝ} (hB : B.det ≠ 0) (hD : D.det ≠ 0) :
    ((D.mul B.inverse).inverse.mul C).mul (S.mul A.inverse) =
      (B.mul ((D.inverse.mul C).mul S)).mul A.inverse := by
  rw [inverse_of_mul hD (det_inverse_ne_zero hB), inverse_inverse hB]
  simp only [Matrix3.mul_assoc]

/-- The inverse of a multiple is the multiple of the inverse by the reciprocal. -/
theorem inverse_scale (hc : c ≠ 0) (hdet : A.det ≠ 0) :
    (A.scale c).inverse = A.inverse.scale c⁻¹ := by
  have hscaled : (A.scale c).det ≠ 0 := by
    rw [det_scale]
    exact mul_ne_zero (pow_ne_zero 3 hc) hdet
  refine (eq_inverse_of_mul_eq_one hscaled ?_).symm
  rw [scale_mul, mul_scale, mul_inverse hdet, scale_scale, mul_inv_cancel₀ hc, one_scale]

end Inverse

section Norm

/-- The square of the norm is the sum of the squares of the entries. -/
theorem norm_eq : A.norm = Real.sqrt (A.m11 ^ 2 + A.m12 ^ 2 + A.m13 ^ 2 + A.m21 ^ 2 + A.m22 ^ 2 +
    A.m23 ^ 2 + A.m31 ^ 2 + A.m32 ^ 2 + A.m33 ^ 2) := by
  simp only [norm, Scalar.norm, entries, List.map_cons, List.map_nil, List.sum_cons, List.sum_nil,
    Exact.square_eq, Exact.sqrt_eq]
  congr 1
  ring

/-- A norm is not negative. -/
theorem norm_nonneg : 0 ≤ A.norm := Real.sqrt_nonneg _

variable {A B C c}

/-- The norm of a multiple is multiplied by the size of the factor. -/
theorem norm_scale : (A.scale c).norm = |c| * A.norm := by
  rw [norm_eq, norm_eq, ← Real.sqrt_sq_eq_abs, ← Real.sqrt_mul (sq_nonneg c)]
  simp only [scale, map]
  congr 1
  ring

/-- A matrix that is not singular has a positive norm. -/
theorem norm_pos_of_det_ne_zero (hdet : A.det ≠ 0) : 0 < A.norm := by
  have hsquares : ∀ y ∈ A.entries.map Scalar.square, (0 : ℝ) ≤ y := by
    intro y hy
    obtain ⟨x, -, rfl⟩ := List.mem_map.mp hy
    rw [Exact.square_eq]
    exact sq_nonneg x
  refine lt_of_le_of_ne A.norm_nonneg (Ne.symm fun hnorm => hdet ?_)
  have hsum : (A.entries.map Scalar.square).sum = 0 :=
    (Real.sqrt_eq_zero (List.sum_nonneg hsquares)).mp hnorm
  apply det_eq_zero_of_entries
  intro x hx
  have hsquare := List.all_zero_of_le_zero_le_of_sum_eq_zero hsquares hsum (List.mem_map_of_mem hx)
  rw [Exact.square_eq] at hsquare
  exact pow_eq_zero_iff two_ne_zero |>.mp hsquare

/-- A non-singular matrix keeps its transform when it is scaled to norm one. -/
theorem canonicalScale_proportional (hdet : A.det ≠ 0) : A.canonicalScale.Proportional A := by
  have hnorm := norm_pos_of_det_ne_zero hdet
  unfold canonicalScale
  simp only [scaleDown_eq, neg_eq]
  split
  · exact ⟨-1 * A.norm⁻¹, by simp [hnorm.ne'], A.scale_scale _ _⟩
  · exact ⟨A.norm⁻¹, inv_ne_zero hnorm.ne', rfl⟩

/-- The canonical scale of a matrix that is not singular has norm one. -/
theorem norm_canonicalScale (hdet : A.det ≠ 0) : A.canonicalScale.norm = 1 := by
  have hnorm := norm_pos_of_det_ne_zero hdet
  unfold canonicalScale
  simp only [scaleDown_eq, neg_eq]
  split
  · rw [norm_scale, norm_scale, abs_neg, abs_one, one_mul, abs_of_pos (inv_pos.mpr hnorm),
      inv_mul_cancel₀ hnorm.ne']
  · rw [norm_scale, abs_of_pos (inv_pos.mpr hnorm), inv_mul_cancel₀ hnorm.ne']

/-- The last entry of a canonical scale is not negative. -/
theorem canonicalScale_m33_nonneg : 0 ≤ A.canonicalScale.m33 := by
  unfold canonicalScale
  simp only
  split
  · rename_i hneg
    exact neg_nonneg.mpr hneg.le
  · rename_i hnonneg
    exact not_lt.mp hnonneg

end Norm

section Proportional

variable {A B C}

/-- What is proportional to a multiple is proportional to the matrix. -/
theorem Proportional.trans (hab : A.Proportional B) (hbc : B.Proportional C) :
    A.Proportional C := by
  obtain ⟨c, hc, rfl⟩ := hab
  obtain ⟨d, hd, rfl⟩ := hbc
  exact ⟨c * d, mul_ne_zero hc hd, C.scale_scale c d⟩

/-- Each of two proportional matrices is a multiple of the other one. -/
theorem Proportional.symm (hab : A.Proportional B) : B.Proportional A := by
  obtain ⟨c, hc, rfl⟩ := hab
  exact ⟨c⁻¹, inv_ne_zero hc, by rw [scale_scale, inv_mul_cancel₀ hc, one_scale]⟩

/-- A matrix that is not singular is proportional to what it is a multiple of. -/
theorem proportional_of_eq_scale {c : ℝ} (hdet : A.det ≠ 0) (h : A = B.scale c) :
    A.Proportional B := by
  refine ⟨c, ?_, h⟩
  rintro rfl
  apply hdet
  rw [h, det_scale]
  ring

/-- A matrix proportional to one that is not singular is not singular. -/
theorem Proportional.det_ne_zero (hab : A.Proportional B) (hdet : B.det ≠ 0) : A.det ≠ 0 := by
  obtain ⟨c, hc, rfl⟩ := hab
  rw [det_scale]
  exact mul_ne_zero (pow_ne_zero 3 hc) hdet

/-- The inverses of proportional matrices are proportional. -/
theorem Proportional.inverse (hab : A.Proportional B) (hdet : B.det ≠ 0) :
    A.inverse.Proportional B.inverse := by
  obtain ⟨c, hc, rfl⟩ := hab
  exact ⟨c⁻¹, inv_ne_zero hc, inverse_scale hc hdet⟩

/-- Proportional transforms are proportional in other coordinates as well. -/
theorem Proportional.change {D : Matrix3 ℝ} (hab : A.Proportional B) :
    ((C.mul A).mul D).Proportional ((C.mul B).mul D) := by
  obtain ⟨c, hc, rfl⟩ := hab
  exact ⟨c, hc, by rw [mul_scale, scale_mul]⟩

/-- The norm and the sign of the last entry fix the factor of a transform. -/
theorem Proportional.eq_of_norm_eq (hab : A.Proportional B) (hnorm : A.norm = B.norm)
    (hpos : 0 < B.norm) (hA : 0 ≤ A.m33) (hB : 0 ≤ B.m33) (hne : B.m33 ≠ 0) : A = B := by
  obtain ⟨c, -, rfl⟩ := hab
  rw [norm_scale, mul_eq_right₀ hpos.ne'] at hnorm
  rcases eq_or_eq_neg_of_abs_eq hnorm with rfl | rfl
  · exact B.one_scale
  · have hneg : (B.scale (-1)).m33 = -B.m33 := neg_one_mul _
    rw [hneg] at hA
    exact absurd (le_antisymm (neg_nonneg.mp hA) hB) hne

end Proportional

end Matrix3

end Projectivity
