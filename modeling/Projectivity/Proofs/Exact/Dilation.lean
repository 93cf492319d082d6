import Projectivity.Proofs.Exact.Cost
import Projectivity.Proofs.Exact.Singular

/-!
# Dilations

The maps that multiply all distances from the origin by a factor.  The normalizing
transform of points around the origin is one of them, so that transforms of such
points can be computed by their factors.
-/

set_option autoImplicit false

namespace Projectivity

namespace Matrix3

/-- The map that multiplies all distances from the origin by a factor. -/
def dilation (s : ℝ) : Matrix3 ℝ := ⟨s, 0, 0, 0, s, 0, 0, 0, 1⟩

variable {s t : ℝ}

/-- The dilation by one is the identity. -/
theorem dilation_one : dilation 1 = one := rfl

/-- The determinant of a dilation is the square of its factor. -/
theorem det_dilation : (dilation s).det = s ^ 2 := by
  simp [dilation, det, pow_two]

/-- Dilations are composed by multiplying their factors. -/
theorem dilation_mul : (dilation s).mul (dilation t) = dilation (s * t) := by
  simp [dilation, mul]

/-- The inverse of a dilation is the one by the reciprocal. -/
theorem inverse_dilation (hs : s ≠ 0) : (dilation s).inverse = dilation s⁻¹ := by
  refine (eq_inverse_of_mul_eq_one ?_ ?_).symm
  · rw [det_dilation]
    exact pow_ne_zero 2 hs
  · rw [dilation_mul, mul_inv_cancel₀ hs, dilation_one]

/-- A dilation that is not too large maps no point to infinity. -/
theorem project?_dilation (hs : s ^ 2 ≤ 4) (p : Point ℝ) :
    (dilation s).project? infinityTolerance p = some ⟨s * p.x, s * p.y⟩ := by
  have hnorm : (dilation s).norm ≤ 3 := by
    rw [norm_eq]
    refine Real.sqrt_le_iff.mpr ⟨by norm_num, ?_⟩
    simp only [dilation]
    linarith
  rw [project?_eq_some_iff]
  constructor
  · simp only [dilation, apply, act, infinityTolerance, Exact.decimal_eq] at hnorm ⊢
    norm_num
    linarith
  · simp [dilation, apply, act, Homogeneous.dehomogenize]

/-- The smallest singular value of a dilation that is not a contraction is one. -/
theorem isNonSingular_dilation [Spectral ℝ] [Spectral.Exact] (hs : 1 ≤ s) (hlarge : s ^ 2 ≤ 4) :
    (dilation s).isNonSingular rankTolerance = true := by
  have hmatrix : (dilation s).toMatrix = Matrix.diagonal ![s, s, 1] := by
    ext i j
    fin_cases i <;> fin_cases j <;> simp [dilation, toMatrix]
  have hnonneg : ∀ i, 0 ≤ ![s, s, 1] i := by
    intro i
    fin_cases i <;> simp <;> linarith
  have hanti : Antitone ![s, s, 1] := by
    intro i j hij
    fin_cases i <;> fin_cases j <;> simp_all
  have hbound : s ≤ 2 := abs_le_of_sq_le_sq' (by linarith) (by norm_num) |>.2
  rw [isNonSingular_iff_regular]
  unfold Regular
  rw [hmatrix]
  refine ⟨Decomposition.ofDiagonal _ hnonneg hanti, ?_, ?_⟩
  · show 0 < s
    linarith
  · show rankTolerance * s < 1
    simp only [rankTolerance, Exact.decimal_eq]
    norm_num
    linarith

end Matrix3

open Matrix3

/-- The normalizing transform of points around the origin is a dilation. -/
theorem Normalization.transform?_of_centered {points : List (Point ℝ)} {r : ℝ} (hr : 1 ≤ r)
    (hcenter : Point.centroid points = ⟨0, 0⟩)
    (hmean : meanDistance points ⟨0, 0⟩ = r * Real.sqrt 2) :
    transform? points = some (dilation r⁻¹) := by
  have hone : 1 ≤ Real.sqrt 2 := Real.one_le_sqrt.mpr one_le_two
  have hspread : ¬ r * Real.sqrt 2 < coincidenceBound := by
    simp only [coincidenceBound, Exact.decimal_eq, not_lt]
    refine le_trans ?_ (one_le_mul_of_one_le_of_one_le hr hone)
    norm_num
  have hscale : Real.sqrt ((2 : ℕ) : ℝ) / (r * Real.sqrt 2) = r⁻¹ := by
    rw [Nat.cast_ofNat]
    field_simp
  unfold transform?
  simp only [hcenter, hmean, Exact.isFinite_eq, Exact.sqrt_eq, hscale, hspread, decide_false,
    Bool.not_false, Bool.and_self, if_true]
  simp [similarity, dilation]

section Errors

variable {H : Matrix3 ℝ} {s : ℝ}

/-- The residual of a correspondence under a multiple of a dilation. -/
theorem Transfer.residual_of_dilation [Spectral ℝ] (hH : H.Proportional (dilation s)) (hs : s ^ 2 ≤ 4)
    (c : Correspondence ℝ) :
    Transfer.forward.residual H c = .finite
      ((s * c.source.x - c.destination.x) ^ 2 + (s * c.source.y - c.destination.y) ^ 2) := by
  simp [residual, forwardError, hH.project?, project?_dilation hs, squaredError, Extended.bounded,
    Point.squaredLength, Point.sub]

/-- The differences of correspondences under a multiple of a dilation. -/
theorem ErrorVector.forward_of_dilation (hH : H.Proportional (dilation s)) (hs : s ^ 2 ≤ 4)
    (data : List (Correspondence ℝ)) : forward H data =
      data.flatMap fun c =>
        [c.destination.x - s * c.source.x, c.destination.y - s * c.source.y] := by
  simp [forward, hH.project?, project?_dilation hs, difference, penalize]

end Errors

end Projectivity
