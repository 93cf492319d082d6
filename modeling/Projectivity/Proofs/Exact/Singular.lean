import Mathlib.Data.List.Sort
import Mathlib.LinearAlgebra.Matrix.Charpoly.Basic
import Projectivity.Proofs.Exact.Spectrum

/-!
# Exact singular values are determined

The squares of the singular values are the roots of a polynomial of the matrix, so that
every decomposition gives the same values.  Whether a transform counts as non-singular
is therefore a property of the transform, and one that does not depend on its factor.
-/

set_option autoImplicit false

namespace Projectivity

/-- A descending family of numbers is determined by how often it has which member. -/
theorem eq_of_antitone_of_map_eq {n : ℕ} {f g : Fin n → ℝ} (hf : Antitone f) (hg : Antitone g)
    (h : Finset.univ.val.map f = Finset.univ.val.map g) : f = g := by
  have hlist : ∀ k : Fin n → ℝ, Finset.univ.val.map k = (List.ofFn k : Multiset ℝ) := by
    intro k
    rw [List.ofFn_eq_map, ← Multiset.map_coe]
    rfl
  rw [hlist, hlist, Multiset.coe_eq_coe] at h
  exact List.ofFn_injective (h.eq_of_sortedGE hf.sortedGE_ofFn hg.sortedGE_ofFn)

namespace Decomposition

variable {m n : ℕ} {M : Matrix (Fin m) (Fin n) ℝ}

/-- The squares of the singular values are the roots of the characteristic polynomial of the Gram
matrix. -/
theorem roots_charpoly_gram (d : Decomposition M) :
    (M.transpose * M).charpoly.roots = Finset.univ.val.map fun i => d.values i ^ 2 := by
  have hinverse : d.vectors * d.vectors.transpose = 1 := mul_eq_one_comm.mp d.orthonormal
  have hcharpoly : (M.transpose * M).charpoly =
      ((Finset.univ.val.map fun i => d.values i ^ 2).map
        fun a => Polynomial.X - Polynomial.C a).prod := by
    calc (M.transpose * M).charpoly
        = (M.transpose * M * d.vectors * d.vectors.transpose).charpoly := by
          rw [Matrix.mul_assoc (M.transpose * M), hinverse, Matrix.mul_one]
      _ = (d.vectors.transpose * (M.transpose * M * d.vectors)).charpoly :=
          Matrix.charpoly_mul_comm _ _
      _ = ((M * d.vectors).transpose * (M * d.vectors)).charpoly := by
          rw [Matrix.transpose_mul, Matrix.mul_assoc, Matrix.mul_assoc]
      _ = _ := by
          rw [d.images, Matrix.charpoly_diagonal, Multiset.map_map]
          rfl
  rw [hcharpoly, Polynomial.roots_multiset_prod_X_sub_C]

/-- The singular values do not depend on the decomposition. -/
theorem values_unique (d e : Decomposition M) : d.values = e.values := by
  have hsquares : (fun i => d.values i ^ 2) = fun i => e.values i ^ 2 := by
    apply eq_of_antitone_of_map_eq
    · exact fun i j hij => pow_le_pow_left₀ (d.nonneg j) (d.descending hij) 2
    · exact fun i j hij => pow_le_pow_left₀ (e.nonneg j) (e.descending hij) 2
    · rw [← d.roots_charpoly_gram, ← e.roots_charpoly_gram]
  funext i
  exact (pow_left_inj₀ (d.nonneg i) (e.nonneg i) two_ne_zero).mp (congrFun hsquares i)

/-- The decomposition of a diagonal matrix whose entries are descending. -/
def ofDiagonal (entries : Fin n → ℝ) (hnonneg : ∀ i, 0 ≤ entries i) (hanti : Antitone entries) :
    Decomposition (Matrix.diagonal entries) where
  vectors := 1
  values := entries
  orthonormal := by simp
  images := by simp [pow_two]
  nonneg := hnonneg
  descending := hanti

/-- The decomposition of a multiple of a matrix. -/
def scale (d : Decomposition M) (c : ℝ) : Decomposition (c • M) where
  vectors := d.vectors
  values i := |c| * d.values i
  orthonormal := d.orthonormal
  images := by
    rw [Matrix.smul_mul, Matrix.transpose_smul, Matrix.smul_mul, Matrix.mul_smul, d.images,
      smul_smul, ← Matrix.diagonal_smul]
    congr 1
    funext i
    rw [Pi.smul_apply, smul_eq_mul, mul_pow, sq_abs, pow_two c]
  nonneg i := mul_nonneg (abs_nonneg c) (d.nonneg i)
  descending i j hij := mul_le_mul_of_nonneg_left (d.descending hij) (abs_nonneg c)

end Decomposition

namespace Matrix3

/-- A matrix is not singular for a tolerance if its largest singular value is positive and its
smallest one is above that part of the largest. -/
def Regular (A : Matrix3 ℝ) (tolerance : ℝ) : Prop :=
  ∃ d : Decomposition A.toMatrix, 0 < d.values 0 ∧ tolerance * d.values 0 < d.values 2

variable {A : Matrix3 ℝ} {tolerance : ℝ}

/-- Whether a matrix is regular can be read off every decomposition. -/
theorem regular_iff (d : Decomposition A.toMatrix) :
    A.Regular tolerance ↔ 0 < d.values 0 ∧ tolerance * d.values 0 < d.values 2 := by
  constructor
  · rintro ⟨e, he⟩
    rwa [d.values_unique e]
  · exact fun h => ⟨d, h⟩

/-- A multiple of a regular transform is regular. -/
theorem Regular.scale (h : A.Regular tolerance) {c : ℝ} (hc : c ≠ 0) :
    (A.scale c).Regular tolerance := by
  obtain ⟨d, hfirst, hlast⟩ := h
  have hpos : 0 < |c| := abs_pos.mpr hc
  have hmatrix : (A.scale c).toMatrix = c • A.toMatrix := by
    simp [Matrix3.scale, map, toMatrix, Matrix.smul_of]
  unfold Regular
  rw [hmatrix]
  refine ⟨d.scale c, mul_pos hpos hfirst, ?_⟩
  show tolerance * (|c| * d.values 0) < |c| * d.values 2
  rw [mul_left_comm]
  exact mul_lt_mul_of_pos_left hlast hpos

/-- A regular transform is not singular. -/
theorem Regular.det_ne_zero (h : A.Regular tolerance) (htolerance : 0 ≤ tolerance) :
    A.det ≠ 0 := by
  obtain ⟨d, hfirst, hlast⟩ := h
  exact det_ne_zero_of_values d htolerance hfirst hlast

/-- A matrix is regular for the tolerance zero exactly if it is not singular. -/
theorem regular_zero_iff : A.Regular 0 ↔ A.det ≠ 0 := by
  refine ⟨fun h => h.det_ne_zero le_rfl, fun hdet => ?_⟩
  obtain ⟨d⟩ := Decomposition.nonempty A.toMatrix
  rw [← A.det_toMatrix, d.det_ne_zero_iff] at hdet
  refine ⟨d, hdet 0, ?_⟩
  rw [zero_mul]
  exact hdet 2

variable [Spectral ℝ] [Spectral.Exact]

/-- A matrix counts as non-singular exactly if it is regular. -/
theorem isNonSingular_iff_regular : A.isNonSingular tolerance = true ↔ A.Regular tolerance := by
  obtain ⟨d, hvalues⟩ := A.exists_singularValues
  have hfinite : A.isFinite = true := by simp [isFinite]
  rw [regular_iff d, isNonSingular, hvalues, hfinite]
  simp only [Bool.true_and, Bool.and_eq_true, decide_eq_true_eq]

/-- A factor does not change whether a transform counts as non-singular. -/
theorem isNonSingular_scale {c : ℝ} (hc : c ≠ 0) :
    (A.scale c).isNonSingular tolerance = true ↔ A.isNonSingular tolerance = true := by
  rw [isNonSingular_iff_regular, isNonSingular_iff_regular]
  constructor
  · intro h
    have hback := h.scale (inv_ne_zero hc)
    rwa [scale_scale, inv_mul_cancel₀ hc, one_scale] at hback
  · exact fun h => h.scale hc

end Matrix3

end Projectivity
