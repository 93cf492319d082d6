import Projectivity.Proofs.Exact.WideMatrix

/-!
# Inverses of transforms

The singular values of an inverse are the reciprocals of those of the transform in
reverse order, so that the two have the same ratio of the smallest to the largest one.
The inverse of a transform that counts as non-singular therefore counts as non-singular
for the same tolerance, and its inverse is the transform again.
-/

set_option autoImplicit false

namespace Projectivity

open Wide (real)

namespace Decomposition

variable {n : ℕ} {M N : Matrix (Fin n) (Fin n) ℝ}

/-- The left singular vectors of a matrix, as columns. -/
noncomputable def leftVectors (d : Decomposition M) : Matrix (Fin n) (Fin n) ℝ :=
  M * d.vectors * Matrix.diagonal fun i => (d.values i)⁻¹

/-- The left singular vectors are orthonormal if no singular value is zero. -/
theorem leftVectors_orthonormal (d : Decomposition M) (hpos : ∀ i, 0 < d.values i) :
    d.leftVectors.transpose * d.leftVectors = 1 := by
  calc d.leftVectors.transpose * d.leftVectors
      = Matrix.diagonal (fun i => (d.values i)⁻¹) *
          ((M * d.vectors).transpose * (M * d.vectors)) *
            Matrix.diagonal fun i => (d.values i)⁻¹ := by
        simp only [leftVectors, Matrix.transpose_mul, Matrix.diagonal_transpose, Matrix.mul_assoc]
    _ = 1 := by
        rw [d.images, Matrix.diagonal_mul_diagonal, Matrix.diagonal_mul_diagonal,
          ← Matrix.diagonal_one]
        congr 1
        funext i
        have hne := (hpos i).ne'
        field_simp

/-- The decomposition of an inverse.  Its right singular vectors are the left ones of the matrix. -/
noncomputable def ofInverse (d : Decomposition M) (hpos : ∀ i, 0 < d.values i) (hN : N * M = 1) :
    Decomposition N where
  vectors := d.leftVectors.submatrix id Fin.rev
  values i := (d.values i.rev)⁻¹
  orthonormal := by
    calc (d.leftVectors.submatrix id Fin.rev).transpose * d.leftVectors.submatrix id Fin.rev
        = (d.leftVectors.transpose * d.leftVectors).submatrix Fin.rev Fin.rev := rfl
      _ = 1 := by
          rw [d.leftVectors_orthonormal hpos]
          exact Matrix.submatrix_one_equiv Fin.revPerm
  images := by
    have himage : N * d.leftVectors = d.vectors * Matrix.diagonal fun i => (d.values i)⁻¹ := by
      rw [leftVectors, ← Matrix.mul_assoc, ← Matrix.mul_assoc, hN, Matrix.one_mul]
    calc (N * d.leftVectors.submatrix id Fin.rev).transpose *
          (N * d.leftVectors.submatrix id Fin.rev)
        = ((N * d.leftVectors).transpose * (N * d.leftVectors)).submatrix Fin.rev Fin.rev := rfl
      _ = (Matrix.diagonal fun i => (d.values i)⁻¹ ^ 2).submatrix Fin.rev Fin.rev := by
          rw [himage, Matrix.transpose_mul, Matrix.diagonal_transpose, Matrix.mul_assoc,
            ← Matrix.mul_assoc d.vectors.transpose, d.orthonormal, Matrix.one_mul,
            Matrix.diagonal_mul_diagonal]
          simp only [pow_two]
      _ = Matrix.diagonal fun i => (d.values i.rev)⁻¹ ^ 2 :=
          Matrix.submatrix_diagonal_equiv _ Fin.revPerm
  nonneg i := (inv_pos.mpr (hpos _)).le
  descending i j hij := inv_anti₀ (hpos _) (d.descending (Fin.rev_le_rev.mpr hij))

end Decomposition

namespace Matrix3

variable {A B : Matrix3 ℝ} {tolerance : ℝ}

/-- Products are the ones of matrices. -/
theorem toMatrix_mul (A B : Matrix3 ℝ) : (A.mul B).toMatrix = A.toMatrix * B.toMatrix := by
  ext i j
  fin_cases i <;> fin_cases j <;> simp [toMatrix, mul, Matrix.mul_apply, Fin.sum_univ_three]

/-- The identity is the one of matrices. -/
theorem toMatrix_one : (one : Matrix3 ℝ).toMatrix = 1 := by
  ext i j
  fin_cases i <;> fin_cases j <;> simp [toMatrix, one]

/-- The inverse is an inverse on the left among matrices. -/
theorem toMatrix_inverse_mul (hdet : A.det ≠ 0) : A.inverse.toMatrix * A.toMatrix = 1 := by
  rw [← toMatrix_mul, inverse_mul hdet, toMatrix_one]

/-- The singular values of a matrix that is not singular are positive. -/
theorem values_pos (d : Decomposition A.toMatrix) (hdet : A.det ≠ 0) : ∀ i, 0 < d.values i := by
  rwa [← d.det_ne_zero_iff, det_toMatrix]

/-- The inverse of a regular transform is regular for the same tolerance. -/
theorem Regular.inverse (h : A.Regular tolerance) (htolerance : 0 ≤ tolerance) :
    A.inverse.Regular tolerance := by
  have hdet := h.det_ne_zero htolerance
  obtain ⟨d, hfirst, hlast⟩ := h
  have hpos := values_pos d hdet
  refine ⟨d.ofInverse hpos (toMatrix_inverse_mul hdet), inv_pos.mpr (hpos 2), ?_⟩
  show tolerance * (d.values 2)⁻¹ < (d.values 0)⁻¹
  rw [← div_eq_mul_inv, div_lt_iff₀ (hpos 2), ← div_eq_inv_mul, lt_div_iff₀ hfirst]
  exact hlast

section Norm

/-- No singular value exceeds the norm, whose square is the sum of their squares. -/
theorem values_le_norm (d : Decomposition A.toMatrix) (i : Fin 3) : d.values i ≤ A.norm := by
  have hinverse : d.vectors * d.vectors.transpose = 1 := mul_eq_one_comm.mp d.orthonormal
  have htrace : ∑ j, d.values j ^ 2 = (A.toMatrix.transpose * A.toMatrix).trace := by
    calc ∑ j, d.values j ^ 2
        = ((A.toMatrix * d.vectors).transpose * (A.toMatrix * d.vectors)).trace := by
          rw [d.images, Matrix.trace_diagonal]
      _ = (A.toMatrix.transpose * A.toMatrix * (d.vectors * d.vectors.transpose)).trace := by
          rw [Matrix.transpose_mul, Matrix.mul_assoc, Matrix.trace_mul_comm, Matrix.mul_assoc,
            Matrix.mul_assoc, Matrix.mul_assoc]
      _ = (A.toMatrix.transpose * A.toMatrix).trace := by rw [hinverse, Matrix.mul_one]
  have hnorm : (A.toMatrix.transpose * A.toMatrix).trace = A.norm ^ 2 := by
    rw [norm_eq, Real.sq_sqrt (by positivity)]
    simp [Matrix.trace, Matrix.mul_apply, Fin.sum_univ_three, toMatrix]
    ring
  refine (pow_le_pow_iff_left₀ (d.nonneg i) A.norm_nonneg two_ne_zero).mp ?_
  rw [← hnorm, ← htrace]
  exact Finset.single_le_sum (fun j _ => sq_nonneg (d.values j)) (Finset.mem_univ i)

/-- A transform is regular if its norm and that of its inverse leave room for the tolerance. -/
theorem regular_of_norm (hdet : A.det ≠ 0) (htolerance : 0 ≤ tolerance)
    (h : tolerance * (A.norm * A.inverse.norm) < 1) : A.Regular tolerance := by
  obtain ⟨d⟩ := Decomposition.nonempty A.toMatrix
  have hpos := values_pos d hdet
  have hlast : (d.values 2)⁻¹ ≤ A.inverse.norm :=
    values_le_norm (d.ofInverse hpos (toMatrix_inverse_mul hdet)) 0
  refine ⟨d, hpos 0, ?_⟩
  rw [← div_lt_one (hpos 2)]
  calc tolerance * d.values 0 / d.values 2 = tolerance * (d.values 0 * (d.values 2)⁻¹) := by ring
    _ ≤ tolerance * (A.norm * A.inverse.norm) := by
        have hfirst := values_le_norm d 0
        have hnonneg := (inv_pos.mpr (hpos 2)).le
        have hnorm := A.norm_nonneg
        gcongr
    _ < 1 := h

/-- The transform that maps the line where the first coordinate is minus one to infinity. -/
def perspective : Matrix3 ℝ := ⟨1, 0, 0, 0, 1, 0, 1, 0, 1⟩

/-- The inverse of the perspective view. -/
theorem inverse_perspective : perspective.inverse = ⟨1, 0, 0, 0, 1, 0, -1, 0, 1⟩ :=
  (eq_inverse_of_mul_eq_one (by simp [perspective, det]) (by simp [perspective, mul, one])).symm

/-- The norms of the perspective view and of its inverse. -/
theorem norm_perspective : perspective.norm = 2 ∧ perspective.inverse.norm = 2 := by
  have hfour : Real.sqrt 4 = 2 := by
    rw [show (4 : ℝ) = 2 ^ 2 by norm_num, Real.sqrt_sq (by norm_num)]
  rw [inverse_perspective, norm_eq, norm_eq]
  norm_num [perspective, hfour]

/-- The perspective view is regular. -/
theorem regular_perspective : perspective.Regular (Scalar.decimal 1 12) := by
  refine regular_of_norm (by simp [perspective, det]) (Exact.decimal_pos Nat.one_pos 12).le ?_
  rw [norm_perspective.1, norm_perspective.2, Exact.decimal_eq]
  norm_num

end Norm

section Wide

variable [Spectral Wide] [Spectral.WideExact] {H : Matrix3 Wide}

/-- The inverse of a transform that counts as non-singular does, too. -/
theorem isNonSingular_inverse (htolerance : 0 ≤ tolerance)
    (h : H.isNonSingular (real tolerance) = true) :
    H.inverse.isNonSingular (real tolerance) = true := by
  obtain ⟨A, rfl, hA⟩ := exists_regular h
  rw [widen_inverse (hA.det_ne_zero htolerance), isNonSingular_widen_iff]
  exact hA.inverse htolerance

/-- The inverse of the inverse is the transform. -/
theorem inverse_inverse_of_isNonSingular (htolerance : 0 ≤ tolerance)
    (h : H.isNonSingular (real tolerance) = true) : H.inverse.inverse = H := by
  obtain ⟨A, rfl, hA⟩ := exists_regular h
  have hdet := hA.det_ne_zero htolerance
  rw [widen_inverse hdet, widen_inverse (det_inverse_ne_zero hdet), inverse_inverse hdet]

end Wide

end Matrix3

end Projectivity
