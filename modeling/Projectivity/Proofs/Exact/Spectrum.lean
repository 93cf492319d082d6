import Mathlib.Analysis.Matrix.Spectrum
import Projectivity.Matrix.Spectrum
import Projectivity.Proofs.Exact.Matrix

/-!
# Exact singular values

What a singular value decomposition is over exact scalars, that every matrix has one,
and what it tells.  If all singular values but one are positive, the kernel is on the
line of the singular vector of that one, and a square matrix with positive singular
values is not singular.
-/

set_option autoImplicit false

namespace Projectivity

/-- A matrix as the list of its rows. -/
def rowsOf {m n : ℕ} (M : Matrix (Fin m) (Fin n) ℝ) : List (List ℝ) :=
  List.ofFn fun i => List.ofFn (M i)

/-- A list of rows as a matrix of a given width. -/
def matrixOf (rows : List (List ℝ)) (n : ℕ) : Matrix (Fin rows.length) (Fin n) ℝ :=
  fun i j => rows[i].getD j 0

/-- The rows of a matrix that is given by its rows. -/
theorem rowsOf_matrixOf {rows : List (List ℝ)} {n : ℕ} (h : ∀ r ∈ rows, r.length = n) :
    rowsOf (matrixOf rows n) = rows := by
  have hrow : ∀ r : List ℝ, r.length = n → (List.ofFn fun j : Fin n => r.getD j 0) = r := by
    rintro r rfl
    apply List.ext_getElem
    · rw [List.length_ofFn]
    · intro j hj hr
      rw [List.getElem_ofFn, List.getD_eq_getElem?_getD, List.getElem?_eq_getElem hr,
        Option.getD_some]
  apply List.ext_getElem
  · simp only [rowsOf, List.length_ofFn]
  · intro i hi hrows
    simp only [rowsOf, List.getElem_ofFn]
    exact hrow rows[i] (h _ (List.getElem_mem hrows))

/-- The kernel of a list of rows. -/
theorem matrixOf_mulVec_eq_zero_iff {rows : List (List ℝ)} {n : ℕ} {x : Fin n → ℝ} :
    (matrixOf rows n).mulVec x = 0 ↔ ∀ r ∈ rows, ∑ j : Fin n, r.getD j 0 * x j = 0 := by
  constructor
  · intro h r hr
    obtain ⟨i, hi, rfl⟩ := List.getElem_of_mem hr
    exact congrFun h ⟨i, hi⟩
  · intro h
    funext i
    exact h rows[i] (List.getElem_mem i.isLt)

/-- A matrix with fewer rows than columns has a kernel. -/
theorem exists_mulVec_eq_zero_of_wide {m n : ℕ} (h : m < n) (M : Matrix (Fin m) (Fin n) ℝ) :
    ∃ x : Fin n → ℝ, x ≠ 0 ∧ M.mulVec x = 0 := by
  have hkernel : LinearMap.ker M.mulVecLin ≠ ⊥ := by
    apply LinearMap.ker_ne_bot_of_finrank_lt
    simpa using h
  obtain ⟨x, hx, hne⟩ := Submodule.exists_mem_ne_zero_of_ne_bot hkernel
  exact ⟨x, hne, hx⟩

/-- A singular value decomposition of a matrix, without the left singular vectors. -/
structure Decomposition {m n : ℕ} (M : Matrix (Fin m) (Fin n) ℝ) where
  /-- The right singular vectors, as columns. -/
  vectors : Matrix (Fin n) (Fin n) ℝ
  values : Fin n → ℝ
  orthonormal : vectors.transpose * vectors = 1
  /-- The images of the singular vectors are orthogonal, and their lengths are the singular
  values. -/
  images : (M * vectors).transpose * (M * vectors) = Matrix.diagonal fun i => values i ^ 2
  nonneg : ∀ i, 0 ≤ values i
  descending : Antitone values

namespace Decomposition

variable {m n : ℕ} {M : Matrix (Fin m) (Fin n) ℝ}

/-- Every matrix has a decomposition: the singular vectors are the eigenvectors of its Gram
matrix. -/
theorem nonempty (M : Matrix (Fin m) (Fin n) ℝ) : Nonempty (Decomposition M) := by
  have hgram : (M.transpose * M).IsHermitian := by
    have h := Matrix.isHermitian_conjTranspose_mul_self M
    rwa [Matrix.conjTranspose_eq_transpose_of_trivial] at h
  have hsymm := Matrix.isSymmetric_toEuclideanLin_iff.mpr hgram
  let basis := hsymm.eigenvectorBasis finrank_euclideanSpace_fin
  let eigenvalues := hsymm.eigenvalues finrank_euclideanSpace_fin
  let V : Matrix (Fin n) (Fin n) ℝ := Matrix.of fun i j => basis j i
  have horthonormal : V.transpose * V = 1 := by
    ext i j
    have hinner := orthonormal_iff_ite.mp basis.orthonormal j i
    simpa [V, Matrix.mul_apply, Matrix.one_apply, PiLp.inner_apply, eq_comm] using hinner
  have heigen : M.transpose * M * V = V * Matrix.diagonal eigenvalues := by
    ext i j
    have happly := hsymm.apply_eigenvectorBasis finrank_euclideanSpace_fin j
    have hentry := congrArg (fun v : EuclideanSpace ℝ (Fin n) => v i) happly
    simp only [Matrix.toLpLin_apply, PiLp.smul_apply, RCLike.ofReal_real_eq_id, id_eq,
      smul_eq_mul] at hentry
    rw [Matrix.mul_diagonal]
    exact hentry.trans (mul_comm _ _)
  have himages : (M * V).transpose * (M * V) = Matrix.diagonal eigenvalues := by
    calc (M * V).transpose * (M * V) = V.transpose * (M.transpose * M * V) := by
          simp only [Matrix.transpose_mul, Matrix.mul_assoc]
      _ = Matrix.diagonal eigenvalues := by
          rw [heigen, ← Matrix.mul_assoc, horthonormal, Matrix.one_mul]
  have hnonneg : ∀ i, 0 ≤ eigenvalues i := by
    intro i
    have hentry := congrFun (congrFun himages i) i
    rw [Matrix.diagonal_apply_eq, Matrix.mul_apply] at hentry
    rw [← hentry]
    exact Finset.sum_nonneg fun k _ => mul_self_nonneg _
  refine ⟨⟨V, fun i => Real.sqrt (eigenvalues i), horthonormal, ?_,
    fun i => Real.sqrt_nonneg _, ?_⟩⟩
  · rw [himages]
    simp only [Real.sq_sqrt (hnonneg _)]
  · intro i j hij
    exact Real.sqrt_le_sqrt (hsymm.eigenvalues_antitone finrank_euclideanSpace_fin hij)

variable (d : Decomposition M)

/-- The singular vectors have length one and are orthogonal to each other. -/
theorem vectors_dot (i j : Fin n) :
    ∑ k, d.vectors k i * d.vectors k j = if i = j then 1 else 0 := by
  have hentry := congrFun (congrFun d.orthonormal i) j
  rwa [Matrix.mul_apply, Matrix.one_apply] at hentry

/-- Two singular vectors are not multiples of one vector. -/
theorem not_multiples {i j : Fin n} (hij : i ≠ j) {x : Fin n → ℝ} {k l : ℝ}
    (hi : (fun a => d.vectors a i) = fun a => k * x a)
    (hj : (fun a => d.vectors a j) = fun a => l * x a) : False := by
  have hdot : ∀ {i' j' : Fin n} {k' l' : ℝ}, (fun a => d.vectors a i') = (fun a => k' * x a) →
      (fun a => d.vectors a j') = (fun a => l' * x a) →
        k' * l' * ∑ a, x a ^ 2 = if i' = j' then 1 else 0 := by
    intro i' j' k' l' hi' hj'
    rw [← d.vectors_dot, Finset.mul_sum]
    refine Finset.sum_congr rfl fun a _ => ?_
    rw [congrFun hi' a, congrFun hj' a]
    ring
  have hone : (1 : ℝ) = 0 := by
    calc (1 : ℝ) = (k * k * ∑ a, x a ^ 2) * (l * l * ∑ a, x a ^ 2) := by
          rw [hdot hi hi, hdot hj hj, if_pos rfl, if_pos rfl, one_mul]
      _ = (k * l * ∑ a, x a ^ 2) * (k * l * ∑ a, x a ^ 2) := by ring
      _ = 0 := by rw [hdot hi hj, if_neg hij, zero_mul]
  exact one_ne_zero hone

/-- The square of a singular value is the squared length of the image of its vector. -/
theorem values_sq (i : Fin n) :
    d.values i ^ 2 = ∑ k, (M.mulVec fun j => d.vectors j i) k ^ 2 := by
  have hentry := congrFun (congrFun d.images i) i
  rw [Matrix.diagonal_apply_eq, Matrix.mul_apply] at hentry
  rw [← hentry]
  refine Finset.sum_congr rfl fun k _ => ?_
  rw [Matrix.transpose_apply, pow_two]
  rfl

/-- A singular vector whose value is zero is in the kernel. -/
theorem mulVec_vector_eq_zero {i : Fin n} (h : d.values i = 0) :
    (M.mulVec fun j => d.vectors j i) = 0 := by
  have hsum := d.values_sq i
  rw [h, zero_pow two_ne_zero, eq_comm, Finset.sum_eq_zero_iff_of_nonneg fun k _ => sq_nonneg _]
    at hsum
  funext k
  exact pow_eq_zero_iff two_ne_zero |>.mp (hsum k (Finset.mem_univ k))

/-- A vector in the kernel has no part along a singular vector whose value is not zero. -/
theorem values_mul_part {x : Fin n → ℝ} (hx : M.mulVec x = 0) (i : Fin n) :
    d.values i ^ 2 * (d.vectors.transpose.mulVec x) i = 0 := by
  have hinverse : d.vectors * d.vectors.transpose = 1 := mul_eq_one_comm.mp d.orthonormal
  have hzero : ((M * d.vectors).transpose * (M * d.vectors)).mulVec
      (d.vectors.transpose.mulVec x) = 0 := by
    rw [Matrix.mulVec_mulVec, Matrix.mul_assoc, Matrix.mul_assoc M, hinverse, Matrix.mul_one,
      ← Matrix.mulVec_mulVec, hx, Matrix.mulVec_zero]
  rw [d.images] at hzero
  have hentry := congrFun hzero i
  rwa [Matrix.mulVec_diagonal] at hentry

/-- A vector with a part along one singular vector only is on the line of it. -/
theorem eq_smul_of_parts {i : Fin n} {x : Fin n → ℝ}
    (h : ∀ j, j ≠ i → (d.vectors.transpose.mulVec x) j = 0) :
    x = fun j => (d.vectors.transpose.mulVec x) i * d.vectors j i := by
  have hinverse : d.vectors * d.vectors.transpose = 1 := mul_eq_one_comm.mp d.orthonormal
  funext j
  calc x j = (d.vectors.mulVec (d.vectors.transpose.mulVec x)) j := by
        rw [Matrix.mulVec_mulVec, hinverse, Matrix.one_mulVec]
    _ = d.vectors j i * (d.vectors.transpose.mulVec x) i :=
        Finset.sum_eq_single i (fun k _ hk => by rw [h k hk, mul_zero])
          (fun hi => absurd (Finset.mem_univ i) hi)
    _ = (d.vectors.transpose.mulVec x) i * d.vectors j i := mul_comm _ _

/-- If all singular values but one are positive, the kernel is on the line of the singular vector
of that one. -/
theorem eq_smul_of_mulVec_eq_zero (i : Fin n) (hpos : ∀ j, j ≠ i → 0 < d.values j)
    {x : Fin n → ℝ} (hx : M.mulVec x = 0) : ∃ k : ℝ, x = fun j => k * d.vectors j i := by
  refine ⟨_, d.eq_smul_of_parts fun j hj => ?_⟩
  have hprod := d.values_mul_part hx j
  exact (mul_eq_zero.mp hprod).resolve_left (pow_ne_zero 2 (hpos j hj).ne')

/-- A square matrix is not singular exactly if its singular values are positive. -/
theorem det_ne_zero_iff {M : Matrix (Fin n) (Fin n) ℝ} (d : Decomposition M) :
    M.det ≠ 0 ↔ ∀ i, 0 < d.values i := by
  have hvectors : d.vectors.det * d.vectors.det = 1 := by
    have hdet := congrArg Matrix.det d.orthonormal
    rwa [Matrix.det_mul, Matrix.det_transpose, Matrix.det_one] at hdet
  have hdet : M.det ^ 2 = ∏ i, d.values i ^ 2 := by
    have himages := congrArg Matrix.det d.images
    rw [Matrix.det_mul, Matrix.det_transpose, Matrix.det_mul, Matrix.det_diagonal] at himages
    rw [← himages, ← pow_two, mul_pow, pow_two d.vectors.det, hvectors, mul_one]
  have hpos : ∀ i, 0 < d.values i ↔ d.values i ^ 2 ≠ 0 := fun i => by
    rw [pow_ne_zero_iff two_ne_zero]
    exact (d.nonneg i).lt_iff_ne'
  rw [← pow_ne_zero_iff two_ne_zero, hdet, Finset.prod_ne_zero_iff]
  simp only [hpos, Finset.mem_univ, true_implies]

/-- The spectrum that a decomposition gives. -/
def spectrum : Spectrum ℝ :=
  ⟨(List.ofFn d.values).take m, List.ofFn fun j => List.ofFn fun i => d.vectors i j⟩

end Decomposition

/-- A list of rows determines the matrix, and so what is a spectrum of it. -/
theorem exists_decomposition_of_rowsOf_eq {m n k l : ℕ} {M : Matrix (Fin m) (Fin n) ℝ}
    {N : Matrix (Fin k) (Fin l) ℝ} (hm : 0 < m) (h : rowsOf M = rowsOf N) (d : Decomposition N) :
    ∃ e : Decomposition M, d.spectrum = e.spectrum := by
  have hrows : m = k := by
    have hlength := congrArg List.length h
    rwa [rowsOf, rowsOf, List.length_ofFn, List.length_ofFn] at hlength
  subst hrows
  have hequal := List.ofFn_injective h
  have hcolumns : n = l := by
    have hlength := congrArg List.length (congrFun hequal ⟨0, hm⟩)
    rwa [List.length_ofFn, List.length_ofFn] at hlength
  subst hcolumns
  have hmatrix : M = N := by
    funext i
    exact List.ofFn_injective (congrFun hequal i)
  subst hmatrix
  exact ⟨d, rfl⟩

/-- An exact singular value decomposition: what it answers for a matrix with rows is the spectrum
of a decomposition. -/
class Spectral.Exact [Spectral ℝ] : Prop where
  decomposes : ∀ {m n : ℕ} (M : Matrix (Fin m) (Fin n) ℝ), 0 < m →
    ∃ d : Decomposition M, Spectral.spectrum (rowsOf M) = d.spectrum

section Existence

/-- Whether a spectrum is that of some decomposition of a list of rows. -/
def IsSpectrumOf (rows : List (List ℝ)) (s : Spectrum ℝ) : Prop :=
  ∃ (m n : ℕ) (M : Matrix (Fin m) (Fin n) ℝ) (d : Decomposition M),
    rowsOf M = rows ∧ s = d.spectrum

open Classical in
/-- A choice of an exact singular value decomposition. -/
@[reducible] noncomputable def Spectral.chosen : Spectral ℝ where
  spectrum rows := if h : ∃ s, IsSpectrumOf rows s then h.choose else ⟨[], []⟩

/-- The chosen singular value decomposition is exact. -/
theorem Spectral.chosen_exact : @Spectral.Exact Spectral.chosen := by
  refine @Spectral.Exact.mk Spectral.chosen fun {m n} M hm => ?_
  have hexists : ∃ s, IsSpectrumOf (rowsOf M) s := by
    obtain ⟨d⟩ := Decomposition.nonempty M
    exact ⟨d.spectrum, m, n, M, d, rfl, rfl⟩
  obtain ⟨k, l, N, d, hrows, hchosen⟩ := hexists.choose_spec
  obtain ⟨e, he⟩ := exists_decomposition_of_rowsOf_eq hm hrows.symm d
  refine ⟨e, ?_⟩
  unfold Spectral.chosen
  simp only
  rw [dif_pos hexists, hchosen, he]

end Existence

/-- The entries of a three by three matrix, by row and column. -/
def Matrix3.toMatrix (A : Matrix3 ℝ) : Matrix (Fin 3) (Fin 3) ℝ :=
  !![A.m11, A.m12, A.m13; A.m21, A.m22, A.m23; A.m31, A.m32, A.m33]

/-- The determinant is the one of matrices. -/
theorem Matrix3.det_toMatrix (A : Matrix3 ℝ) : A.toMatrix.det = A.det := by
  rw [Matrix.det_fin_three]
  simp only [toMatrix, det]
  simp
  ring

/-- A three by three matrix whose smallest singular value is above a part of its largest is not
singular. -/
theorem Matrix3.det_ne_zero_of_values {A : Matrix3 ℝ} {tolerance : ℝ}
    (d : Decomposition A.toMatrix) (htolerance : 0 ≤ tolerance) (hfirst : 0 < d.values 0)
    (hlast : tolerance * d.values 0 < d.values 2) : A.det ≠ 0 := by
  rw [← A.det_toMatrix, d.det_ne_zero_iff]
  intro i
  have hbound : 0 < d.values 2 := lt_of_le_of_lt (mul_nonneg htolerance hfirst.le) hlast
  exact lt_of_lt_of_le hbound (d.descending (Fin.le_last i))

section Singular

variable [Spectral ℝ] [Spectral.Exact]

/-- A list of rows of equal length has a decomposition that gives its spectrum. -/
theorem exists_decomposition {rows : List (List ℝ)} {n : ℕ} (h : ∀ r ∈ rows, r.length = n)
    (hrows : 0 < rows.length) :
    ∃ d : Decomposition (matrixOf rows n), Spectral.spectrum rows = d.spectrum := by
  obtain ⟨d, hd⟩ := Spectral.Exact.decomposes (matrixOf rows n) hrows
  rw [rowsOf_matrixOf h] at hd
  exact ⟨d, hd⟩

/-- The three singular values of a three by three matrix. -/
theorem Matrix3.exists_singularValues (A : Matrix3 ℝ) : ∃ d : Decomposition A.toMatrix,
    (Spectral.spectrum A.rows).values = [d.values 0, d.values 1, d.values 2] := by
  obtain ⟨d, hd⟩ := Spectral.Exact.decomposes A.toMatrix (by decide)
  have hrows : rowsOf A.toMatrix = A.rows := by
    simp [rowsOf, toMatrix, rows, List.ofFn_succ]
  rw [hrows] at hd
  refine ⟨d, ?_⟩
  rw [hd]
  simp [Decomposition.spectrum, List.ofFn_succ]

/-- A transform that counts as non-singular is not singular. -/
theorem Matrix3.det_ne_zero_of_isNonSingular {A : Matrix3 ℝ}
    (h : A.isNonSingular rankTolerance = true) : A.det ≠ 0 := by
  obtain ⟨d, hvalues⟩ := A.exists_singularValues
  unfold Matrix3.isNonSingular at h
  simp only [hvalues, Bool.and_eq_true, decide_eq_true_eq] at h
  obtain ⟨-, hfirst, hlast⟩ := h
  exact det_ne_zero_of_values d (Exact.decimal_pos Nat.one_pos 12).le hfirst hlast

end Singular

end Projectivity
