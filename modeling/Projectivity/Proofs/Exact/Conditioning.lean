import Projectivity.Proofs.Exact.Singular

/-!
# Conditioning of transforms

The largest and the smallest singular value are the most and the least that a transform
stretches a vector.  So what changes all lengths by a bounded factor changes the ratio
of the two values by a bounded factor, and with it the tolerance at which a transform
counts as singular.
-/

set_option autoImplicit false

namespace Projectivity

namespace Decomposition

variable {m n : ℕ} {M : Matrix (Fin m) (Fin n) ℝ} (d : Decomposition M)

/-- The squared length of an image, by the parts along the singular vectors. -/
theorem dotProduct_mulVec_self (x : Fin n → ℝ) : dotProduct (M.mulVec x) (M.mulVec x) =
    ∑ i, d.values i ^ 2 * (d.vectors.transpose.mulVec x) i ^ 2 := by
  have hinverse : d.vectors * d.vectors.transpose = 1 := mul_eq_one_comm.mp d.orthonormal
  generalize hy : d.vectors.transpose.mulVec x = y
  have hx : M.mulVec x = (M * d.vectors).mulVec y := by
    rw [← hy, Matrix.mulVec_mulVec, Matrix.mul_assoc, hinverse, Matrix.mul_one]
  calc dotProduct (M.mulVec x) (M.mulVec x)
      = dotProduct (((M * d.vectors).transpose * (M * d.vectors)).mulVec y) y := by
        rw [hx, Matrix.dotProduct_mulVec, ← Matrix.mulVec_transpose, Matrix.mulVec_mulVec]
    _ = ∑ i, d.values i ^ 2 * y i ^ 2 := by
        rw [d.images]
        refine Finset.sum_congr rfl fun i _ => ?_
        rw [Matrix.mulVec_diagonal]
        ring

/-- The length of a vector is that of its coordinates along the singular vectors. -/
theorem dotProduct_self (x : Fin n → ℝ) :
    dotProduct x x = ∑ i, (d.vectors.transpose.mulVec x) i ^ 2 := by
  have hinverse : d.vectors * d.vectors.transpose = 1 := mul_eq_one_comm.mp d.orthonormal
  calc dotProduct x x
      = dotProduct (d.vectors.transpose.mulVec x) (d.vectors.transpose.mulVec x) := by
        rw [Matrix.dotProduct_mulVec, ← Matrix.mulVec_transpose, Matrix.mulVec_mulVec,
          Matrix.transpose_transpose, hinverse, Matrix.one_mulVec]
    _ = ∑ i, (d.vectors.transpose.mulVec x) i ^ 2 :=
        Finset.sum_congr rfl fun i _ => (pow_two _).symm

/-- A singular value that is above no other one is the least that a vector is stretched. -/
theorem le_dotProduct_mulVec_self {i : Fin n} (h : ∀ j, d.values i ≤ d.values j) (x : Fin n → ℝ) :
    d.values i ^ 2 * dotProduct x x ≤ dotProduct (M.mulVec x) (M.mulVec x) := by
  rw [d.dotProduct_mulVec_self, d.dotProduct_self, Finset.mul_sum]
  refine Finset.sum_le_sum fun j _ => ?_
  exact mul_le_mul_of_nonneg_right (pow_le_pow_left₀ (d.nonneg i) (h j) 2) (sq_nonneg _)

end Decomposition

namespace Homogeneous

/-- Homogeneous coordinates as a vector. -/
def toVector (h : Homogeneous ℝ) : Fin 3 → ℝ := ![h.x, h.y, h.w]

/-- The squared length of homogeneous coordinates. -/
def squaredLength (h : Homogeneous ℝ) : ℝ := h.x ^ 2 + h.y ^ 2 + h.w ^ 2

/-- A squared length is not negative. -/
theorem squaredLength_nonneg (h : Homogeneous ℝ) : 0 ≤ h.squaredLength := by
  unfold squaredLength
  positivity

/-- The squared length is the product of the vector with itself. -/
theorem squaredLength_eq (h : Homogeneous ℝ) :
    h.squaredLength = dotProduct h.toVector h.toVector := by
  simp [squaredLength, toVector, dotProduct, Fin.sum_univ_three, pow_two]

/-- Every vector with three entries is one of homogeneous coordinates. -/
theorem exists_toVector_eq (x : Fin 3 → ℝ) : ∃ h : Homogeneous ℝ, h.toVector = x := by
  refine ⟨⟨x 0, x 1, x 2⟩, ?_⟩
  funext i
  fin_cases i <;> rfl

end Homogeneous

namespace Matrix3

variable {A B H : Matrix3 ℝ} {tolerance : ℝ}

section Stretch

/-- The action of a matrix is the product with the vector. -/
theorem toMatrix_mulVec (A : Matrix3 ℝ) (h : Homogeneous ℝ) :
    A.toMatrix.mulVec h.toVector = (A.act h).toVector := by
  funext i
  fin_cases i <;>
    simp [toMatrix, act, Homogeneous.toVector, Matrix.mulVec, dotProduct, Fin.sum_univ_three]

variable (d : Decomposition A.toMatrix)

/-- The largest singular value is the most that a vector is stretched. -/
theorem squaredLength_act_le (h : Homogeneous ℝ) :
    (A.act h).squaredLength ≤ d.values 0 ^ 2 * h.squaredLength := by
  rw [Homogeneous.squaredLength_eq, Homogeneous.squaredLength_eq, ← toMatrix_mulVec,
    d.dotProduct_mulVec_self, d.dotProduct_self, Finset.mul_sum]
  refine Finset.sum_le_sum fun i _ => ?_
  have hle : d.values i ^ 2 ≤ d.values 0 ^ 2 :=
    pow_le_pow_left₀ (d.nonneg i) (d.descending (Fin.zero_le i)) 2
  exact mul_le_mul_of_nonneg_right hle (sq_nonneg _)

/-- The smallest singular value is the least that a vector is stretched. -/
theorem le_squaredLength_act (h : Homogeneous ℝ) :
    d.values 2 ^ 2 * h.squaredLength ≤ (A.act h).squaredLength := by
  rw [Homogeneous.squaredLength_eq, Homogeneous.squaredLength_eq, ← toMatrix_mulVec]
  exact d.le_dotProduct_mulVec_self (fun j => d.descending (Fin.le_last j)) h.toVector

/-- Every singular value is what some vector is stretched. -/
theorem exists_squaredLength_act_eq (i : Fin 3) : ∃ h : Homogeneous ℝ, h.squaredLength = 1 ∧
    (A.act h).squaredLength = d.values i ^ 2 := by
  obtain ⟨h, hvector⟩ := Homogeneous.exists_toVector_eq fun j => d.vectors j i
  refine ⟨h, ?_, ?_⟩
  · rw [Homogeneous.squaredLength_eq, hvector]
    exact (d.vectors_dot i i).trans (if_pos rfl)
  · rw [Homogeneous.squaredLength_eq, ← toMatrix_mulVec, hvector, d.values_sq]
    exact Finset.sum_congr rfl fun k _ => (pow_two _).symm

/-- If all vectors are stretched alike, all singular values are what they are stretched. -/
theorem values_eq_of_act {c : ℝ} (hc : 0 ≤ c)
    (h : ∀ g : Homogeneous ℝ, (A.act g).squaredLength = c ^ 2 * g.squaredLength) (i : Fin 3) :
    d.values i = c := by
  obtain ⟨g, hone, hstretch⟩ := exists_squaredLength_act_eq d i
  rw [h, hone, mul_one] at hstretch
  exact (pow_left_inj₀ (d.nonneg i) hc two_ne_zero).mp hstretch.symm

end Stretch

section Regular

/-- A transform that is regular for a tolerance is regular for a smaller one. -/
theorem Regular.mono (h : H.Regular tolerance) {lower : ℝ} (hle : lower ≤ tolerance) :
    H.Regular lower := by
  obtain ⟨d, hfirst, hlast⟩ := h
  exact ⟨d, hfirst, lt_of_le_of_lt (mul_le_mul_of_nonneg_right hle hfirst.le) hlast⟩

/-- The identity is regular for tolerances below one. -/
theorem regular_one (h : tolerance < 1) : one.Regular tolerance := by
  obtain ⟨d⟩ := Decomposition.nonempty (one : Matrix3 ℝ).toMatrix
  have hvalue : ∀ i, d.values i = 1 :=
    values_eq_of_act d zero_le_one fun g => by rw [one_act, one_pow, one_mul]
  refine ⟨d, ?_, ?_⟩
  · rw [hvalue]
    exact one_pos
  · rw [hvalue, hvalue, mul_one]
    exact h

/-- A transform that is regular stretches no vector too little against another one. -/
theorem Regular.squaredLength_le (hregular : H.Regular tolerance) (htolerance : 0 ≤ tolerance)
    (g h : Homogeneous ℝ) : tolerance ^ 2 * ((H.act g).squaredLength * h.squaredLength) ≤
      (H.act h).squaredLength * g.squaredLength := by
  obtain ⟨d, hfirst, hlast⟩ := hregular
  have hsquares : tolerance ^ 2 * d.values 0 ^ 2 ≤ d.values 2 ^ 2 := by
    rw [← mul_pow]
    exact pow_le_pow_left₀ (mul_nonneg htolerance hfirst.le) hlast.le 2
  calc tolerance ^ 2 * ((H.act g).squaredLength * h.squaredLength)
      ≤ tolerance ^ 2 * (d.values 0 ^ 2 * g.squaredLength * h.squaredLength) := by
        have hg := squaredLength_act_le d g
        have hpos := h.squaredLength_nonneg
        gcongr
    _ = tolerance ^ 2 * d.values 0 ^ 2 * (g.squaredLength * h.squaredLength) := by ring
    _ ≤ d.values 2 ^ 2 * (g.squaredLength * h.squaredLength) :=
        mul_le_mul_of_nonneg_right hsquares
          (mul_nonneg g.squaredLength_nonneg h.squaredLength_nonneg)
    _ = d.values 2 ^ 2 * h.squaredLength * g.squaredLength := by ring
    _ ≤ (H.act h).squaredLength * g.squaredLength :=
        mul_le_mul_of_nonneg_right (le_squaredLength_act d h) g.squaredLength_nonneg

/-- A transform changes the lengths of vectors at most by a factor, in both directions. -/
structure Distorts (A : Matrix3 ℝ) (k : ℝ) : Prop where
  regular : A.det ≠ 0
  one_le : 1 ≤ k
  there : ∀ h, (A.act h).squaredLength ≤ k ^ 2 * h.squaredLength
  back : ∀ h, (A.inverse.act h).squaredLength ≤ k ^ 2 * h.squaredLength

variable {k l : ℝ}

/-- A transform that distorts shortens no vector too much. -/
theorem Distorts.le_act (hA : A.Distorts k) (h : Homogeneous ℝ) :
    h.squaredLength ≤ k ^ 2 * (A.act h).squaredLength := by
  have hback := hA.back (A.act h)
  rwa [← act_mul, inverse_mul hA.regular, one_act] at hback

/-- The inverse distorts at most as much. -/
theorem Distorts.inverse (hA : A.Distorts k) : A.inverse.Distorts k where
  regular := det_inverse_ne_zero hA.regular
  one_le := hA.one_le
  there := hA.back
  back h := by
    rw [inverse_inverse hA.regular]
    exact hA.there h

section Values

variable (d : Decomposition H.toMatrix) (e : Decomposition ((A.mul H).mul B).toMatrix)

/-- A product of three transforms acts as one after the other. -/
theorem act_between (h : Homogeneous ℝ) :
    ((A.mul H).mul B).act h = A.act (H.act (B.act h)) := by
  rw [act_mul, act_mul]

/-- The product of two distortions is positive. -/
theorem mul_pos_of_distorts (hA : A.Distorts k) (hB : B.Distorts l) : 0 < k * l :=
  mul_pos (lt_of_lt_of_le one_pos hA.one_le) (lt_of_lt_of_le one_pos hB.one_le)

/-- Distortions enlarge the largest singular value at most by the product of their factors. -/
theorem largest_le_of_distorts (hA : A.Distorts k) (hB : B.Distorts l) :
    e.values 0 ≤ k * l * d.values 0 := by
  have hpos := mul_pos_of_distorts hA hB
  obtain ⟨h, hone, hstretch⟩ := exists_squaredLength_act_eq e 0
  refine (pow_le_pow_iff_left₀ (e.nonneg 0) (mul_nonneg hpos.le (d.nonneg 0)) two_ne_zero).mp ?_
  calc e.values 0 ^ 2 = (A.act (H.act (B.act h))).squaredLength := by rw [← act_between, hstretch]
    _ ≤ k ^ 2 * (d.values 0 ^ 2 * (l ^ 2 * h.squaredLength)) := by
        refine (hA.there _).trans (mul_le_mul_of_nonneg_left ?_ (sq_nonneg k))
        refine (squaredLength_act_le d _).trans (mul_le_mul_of_nonneg_left ?_ (sq_nonneg _))
        exact hB.there h
    _ = (k * l * d.values 0) ^ 2 := by
        rw [hone]
        ring

/-- Distortions diminish the smallest singular value at most by the product of their factors. -/
theorem smallest_le_of_distorts (hA : A.Distorts k) (hB : B.Distorts l) :
    d.values 2 ≤ k * l * e.values 2 := by
  have hpos := mul_pos_of_distorts hA hB
  obtain ⟨h, hone, hstretch⟩ := exists_squaredLength_act_eq e 2
  refine (pow_le_pow_iff_left₀ (d.nonneg 2) (mul_nonneg hpos.le (e.nonneg 2)) two_ne_zero).mp ?_
  calc d.values 2 ^ 2 = d.values 2 ^ 2 * h.squaredLength := by rw [hone, mul_one]
    _ ≤ d.values 2 ^ 2 * (l ^ 2 * (B.act h).squaredLength) :=
        mul_le_mul_of_nonneg_left (hB.le_act h) (sq_nonneg _)
    _ = l ^ 2 * (d.values 2 ^ 2 * (B.act h).squaredLength) := by ring
    _ ≤ l ^ 2 * (k ^ 2 * (A.act (H.act (B.act h))).squaredLength) := by
        refine mul_le_mul_of_nonneg_left ?_ (sq_nonneg l)
        exact (le_squaredLength_act d _).trans (hA.le_act _)
    _ = (k * l * e.values 2) ^ 2 := by
        rw [← act_between, hstretch]
        ring

end Values

/-- A transform that is regular with room for the distortions of both views stays regular under
them. -/
theorem Regular.distort (hregular : H.Regular (tolerance * (k * l) ^ 2))
    (htolerance : 0 ≤ tolerance) (hA : A.Distorts k) (hB : B.Distorts l) :
    ((A.mul H).mul B).Regular tolerance := by
  obtain ⟨d, hfirst, hlast⟩ := hregular
  obtain ⟨e⟩ := Decomposition.nonempty ((A.mul H).mul B).toMatrix
  have hpos := mul_pos_of_distorts hA hB
  have hlargest := largest_le_of_distorts d e hA hB
  have hscaled : k * l * (tolerance * e.values 0) < k * l * e.values 2 := by
    calc k * l * (tolerance * e.values 0) ≤ k * l * (tolerance * (k * l * d.values 0)) := by
          gcongr
      _ = tolerance * (k * l) ^ 2 * d.values 0 := by ring
      _ < d.values 2 := hlast
      _ ≤ k * l * e.values 2 := smallest_le_of_distorts d e hA hB
  have hend := lt_of_mul_lt_mul_left hscaled hpos.le
  have hvalue : 0 < e.values 2 := lt_of_le_of_lt (mul_nonneg htolerance (e.nonneg 0)) hend
  exact ⟨e, lt_of_lt_of_le hvalue (e.descending (Fin.zero_le 2)), hend⟩

end Regular

end Matrix3

end Projectivity
