import Projectivity.Proofs.Exact.Conditioning

/-!
# Rows in any order

What a decomposition says of a matrix depends on the Gram matrix alone, and that is a
sum over the rows.  So the order of the rows does not matter for the singular values,
nor for a singular vector whose value no other one reaches.
-/

set_option autoImplicit false

namespace Projectivity

section Rows

variable {n : ℕ}

/-- The squared length of an image is the sum of the squares of its products with the rows. -/
theorem dotProduct_matrixOf_mulVec (rows : List (List ℝ)) (x : Fin n → ℝ) :
    dotProduct ((matrixOf rows n).mulVec x) ((matrixOf rows n).mulVec x) =
      (rows.map fun r => (∑ j : Fin n, r.getD j 0 * x j) ^ 2).sum := by
  rw [← Fin.sum_univ_fun_getElem]
  exact Finset.sum_congr rfl fun i _ => (pow_two _).symm

/-- The products of the columns are sums over the rows. -/
theorem gram_matrixOf (rows : List (List ℝ)) (i j : Fin n) :
    ((matrixOf rows n).transpose * matrixOf rows n) i j =
      (rows.map fun r => r.getD i 0 * r.getD j 0).sum := by
  rw [← Fin.sum_univ_fun_getElem, Matrix.mul_apply]
  rfl

/-- The products of the columns do not depend on the order of the rows. -/
theorem gram_perm {rows others : List (List ℝ)} (h : rows.Perm others) :
    (matrixOf others n).transpose * matrixOf others n =
      (matrixOf rows n).transpose * matrixOf rows n := by
  ext i j
  rw [gram_matrixOf, gram_matrixOf]
  exact ((h.map _).sum_eq).symm

end Rows

namespace Decomposition

variable {m n k : ℕ} {M : Matrix (Fin m) (Fin n) ℝ} {N : Matrix (Fin k) (Fin n) ℝ}

/-- The decomposition of a matrix with the same Gram matrix. -/
def congr (d : Decomposition M) (h : N.transpose * N = M.transpose * M) : Decomposition N where
  vectors := d.vectors
  values := d.values
  orthonormal := d.orthonormal
  images := by
    rw [← d.images, Matrix.transpose_mul, Matrix.transpose_mul, Matrix.mul_assoc,
      ← Matrix.mul_assoc N.transpose, h, Matrix.mul_assoc, Matrix.mul_assoc]
  nonneg := d.nonneg
  descending := d.descending

variable (d e : Decomposition M) {i : Fin n}

/-- A vector that is stretched as little as a singular value is on the line of its vector, if all
other singular values are larger. -/
theorem eq_smul_of_stretch (h : ∀ j, j ≠ i → d.values i < d.values j) {x : Fin n → ℝ}
    (hx : dotProduct (M.mulVec x) (M.mulVec x) = d.values i ^ 2 * dotProduct x x) :
    ∃ c : ℝ, x = fun j => c * d.vectors j i := by
  refine ⟨_, d.eq_smul_of_parts fun j hj => ?_⟩
  rw [d.dotProduct_mulVec_self, d.dotProduct_self, Finset.mul_sum, ← sub_eq_zero,
    ← Finset.sum_sub_distrib] at hx
  -- No part can be stretched less than by the least singular value.
  have hnonneg : ∀ l ∈ Finset.univ,
      0 ≤ d.values l ^ 2 * (d.vectors.transpose.mulVec x) l ^ 2 -
        d.values i ^ 2 * (d.vectors.transpose.mulVec x) l ^ 2 := by
    intro l _
    have hle : d.values i ≤ d.values l := by
      by_cases hl : l = i
      · rw [hl]
      · exact (h l hl).le
    rw [← sub_mul]
    exact mul_nonneg (sub_nonneg.mpr (pow_le_pow_left₀ (d.nonneg i) hle 2)) (sq_nonneg _)
  have hzero := (Finset.sum_eq_zero_iff_of_nonneg hnonneg).mp hx j (Finset.mem_univ j)
  rw [← sub_mul] at hzero
  have hgap := pow_lt_pow_left₀ (h j hj) (d.nonneg i) two_ne_zero
  exact pow_eq_zero_iff two_ne_zero |>.mp
    ((mul_eq_zero.mp hzero).resolve_left (sub_pos.mpr hgap).ne')

/-- A matrix with fewer rows than columns has a singular value of zero. -/
theorem values_eq_zero_of_wide (hwide : m < n) (h : ∀ j, d.values i ≤ d.values j) :
    d.values i = 0 := by
  obtain ⟨x, hne, hx⟩ := exists_mulVec_eq_zero_of_wide hwide M
  have hstretch := d.le_dotProduct_mulVec_self h x
  rw [hx, zero_dotProduct] at hstretch
  have hlength : 0 < dotProduct x x :=
    lt_of_le_of_ne (Finset.sum_nonneg fun j _ => mul_self_nonneg (x j))
      (Ne.symm (mt dotProduct_self_eq_zero.mp hne))
  exact pow_eq_zero_iff two_ne_zero |>.mp
    (le_antisymm (nonpos_of_mul_nonpos_left hstretch hlength) (sq_nonneg _))

/-- The singular vector of a value below all others is determined up to a factor. -/
theorem exists_vectors_eq (h : ∀ j, j ≠ i → d.values i < d.values j) :
    ∃ c : ℝ, c ≠ 0 ∧ (fun j => e.vectors j i) = fun j => c * d.vectors j i := by
  have hlength : dotProduct (fun j => e.vectors j i) (fun j => e.vectors j i) = 1 :=
    (e.vectors_dot i i).trans (if_pos rfl)
  have hstretch : dotProduct (M.mulVec fun j => e.vectors j i) (M.mulVec fun j => e.vectors j i) =
      d.values i ^ 2 * dotProduct (fun j => e.vectors j i) (fun j => e.vectors j i) := by
    rw [hlength, mul_one, d.values_unique e, e.values_sq]
    exact Finset.sum_congr rfl fun l _ => (pow_two _).symm
  obtain ⟨c, hc⟩ := d.eq_smul_of_stretch h hstretch
  refine ⟨c, ?_, hc⟩
  rintro rfl
  rw [hc] at hlength
  simp at hlength

end Decomposition

end Projectivity
