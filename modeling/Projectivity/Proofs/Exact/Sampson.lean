import Mathlib.Analysis.Calculus.FDeriv.Mul
import Mathlib.Analysis.Calculus.FDeriv.Prod
import Mathlib.LinearAlgebra.Matrix.Determinant.Basic
import Mathlib.Topology.Algebra.Module.FiniteDimension
import Projectivity.Proofs.Exact.Dilation

/-!
# The Sampson correction

The rows of derivatives are the derivative of the two errors by the four coordinates, and
the determinant of their products is at least the fourth power of the last coordinate of
the image.  Where the test of the determinant passes, the correction is the shortest change
of the coordinates that cancels the errors to first order.  The correction does not depend
on the factor of the transform, but the test compares with a fixed number, so that it can
turn out differently for a multiple of the transform.
-/

set_option autoImplicit false

namespace Projectivity

/-- Products of multiples of two lists. -/
theorem Exact.dot_map_mul (k : ℝ) (a b : List ℝ) :
    Scalar.dot (a.map (k * ·)) (b.map (k * ·)) = k ^ 2 * Scalar.dot a b := by
  unfold Scalar.dot
  induction a generalizing b with
  | nil => simp
  | cons x rest ih =>
    cases b with
    | nil => simp
    | cons y other =>
      simp only [List.map_cons, List.zipWith_cons_cons, List.sum_cons, ih]
      ring

/-- The norm of a list is the length of the vector. -/
theorem Exact.norm_ofFn {n : ℕ} (v : Fin n → ℝ) :
    Scalar.norm (List.ofFn v) = Real.sqrt (dotProduct v v) := by
  simp [Scalar.norm, List.map_ofFn, List.sum_ofFn, dotProduct, pow_two]

namespace Sampson

section Derivative

/-- The coordinates of a correspondence, those of the source first. -/
def coordinates (c : Correspondence ℝ) : Fin 4 → ℝ :=
  ![c.source.x, c.source.y, c.destination.x, c.destination.y]

/-- The correspondence with the given coordinates. -/
def ofCoordinates (v : Fin 4 → ℝ) : Correspondence ℝ := ⟨⟨v 0, v 1⟩, ⟨v 2, v 3⟩⟩

/-- The two errors as a function of the coordinates. -/
noncomputable def errorsAt (H : Matrix3 ℝ) (v : Fin 4 → ℝ) : Fin 2 → ℝ :=
  ![(errors H (ofCoordinates v)).1, (errors H (ofCoordinates v)).2]

/-- The rows of derivatives as a matrix. -/
noncomputable def derivatives (H : Matrix3 ℝ) (c : Correspondence ℝ) : Matrix (Fin 2) (Fin 4) ℝ :=
  Matrix.of ![fun j => (jacobian H c).1.getD j 0, fun j => (jacobian H c).2.getD j 0]

variable (H : Matrix3 ℝ) (c : Correspondence ℝ)

/-- The rows of derivatives are what they are called. -/
theorem hasFDerivAt_errorsAt : HasFDerivAt (errorsAt H)
    (derivatives H c).mulVecLin.toContinuousLinearMap (coordinates c) := by
  let entry (i : Fin 4) : (Fin 4 → ℝ) →L[ℝ] ℝ := ContinuousLinearMap.proj i
  have hentry : ∀ i, HasFDerivAt (fun v : Fin 4 → ℝ => v i) (entry i) (coordinates c) :=
    fun i => (entry i).hasFDerivAt
  -- A coordinate of the image of the source is affine in the coordinates of the source.
  have himage : ∀ a b d : ℝ, HasFDerivAt (fun v : Fin 4 → ℝ => a * v 0 + b * v 1 + d * 1)
      (a • entry 0 + b • entry 1) (coordinates c) :=
    fun a b d => (((hentry 0).const_mul a).add ((hentry 1).const_mul b)).add_const (d * 1)
  rw [hasFDerivAt_pi']
  intro i
  fin_cases i
  · refine ((himage H.m21 H.m22 H.m23).neg.add
      ((hentry 3).mul (himage H.m31 H.m32 H.m33))).congr_fderiv ?_
    ext v
    simp [derivatives, jacobian, coordinates, entry, dotProduct, Fin.sum_univ_four, Matrix3.apply,
      Matrix3.act]
    ring
  · refine ((himage H.m11 H.m12 H.m13).sub
      ((hentry 2).mul (himage H.m31 H.m32 H.m33))).congr_fderiv ?_
    ext v
    simp [derivatives, jacobian, coordinates, entry, dotProduct, Fin.sum_univ_four, Matrix3.apply,
      Matrix3.act]
    ring

/-- The products of the rows of derivatives with each other. -/
theorem derivatives_mul_transpose : derivatives H c * (derivatives H c).transpose =
    !![Scalar.dot (jacobian H c).1 (jacobian H c).1, Scalar.dot (jacobian H c).1 (jacobian H c).2;
      Scalar.dot (jacobian H c).2 (jacobian H c).1, Scalar.dot (jacobian H c).2 (jacobian H c).2] := by
  ext i j
  rw [Matrix.mul_apply, Fin.sum_univ_four]
  fin_cases i <;> fin_cases j <;> simp [derivatives, jacobian, Scalar.dot] <;> ring

/-- The determinant of the products of the derivatives is the one that is computed. -/
theorem det_derivatives : (derivatives H c * (derivatives H c).transpose).det =
    gramDeterminant (jacobian H c) := by
  rw [derivatives_mul_transpose, Matrix.det_fin_two_of]
  rfl

end Derivative

section Shift

/-- The change of the coordinates that the multipliers make up, whatever the determinant is. -/
noncomputable def shift (H : Matrix3 ℝ) (c : Correspondence ℝ) : Fin 4 → ℝ :=
  let m := multipliers (jacobian H c) (errors H c)
  (derivatives H c).transpose.mulVec ![-m.1, -m.2]

/-- The derivatives of a correspondence pass the test of their determinant. -/
def Passes (H : Matrix3 ℝ) (c : Correspondence ℝ) : Prop :=
  determinantBound < |gramDeterminant (jacobian H c)|

/-- The test of the determinant can be decided in exact arithmetic. -/
noncomputable instance (H : Matrix3 ℝ) (c : Correspondence ℝ) : Decidable (Passes H c) :=
  inferInstanceAs (Decidable (_ < _))

/-- The four numbers that a correspondence contributes. -/
noncomputable def block (H : Matrix3 ℝ) (c : Correspondence ℝ) : Fin 4 → ℝ :=
  if Passes H c then shift H c else fun _ => ErrorVector.penalty

variable (H : Matrix3 ℝ) (c : Correspondence ℝ)

/-- The correction of a correspondence that passes the test is the shift of its coordinates. -/
theorem correction?_eq_of_passes (h : Passes H c) :
    correction? H c = some (List.ofFn (shift H c)) := by
  refine (if_pos h).trans (congrArg some ?_)
  simp [shift, derivatives, jacobian, Matrix.mulVec, dotProduct, List.ofFn_succ]
  exact ⟨add_comm _ _, add_comm _ _⟩

/-- There is no correction for a correspondence that does not pass the test. -/
theorem correction?_eq_none (h : ¬ Passes H c) : correction? H c = none := if_neg h

/-- The vector lists the blocks of the correspondences. -/
theorem vector_eq_flatMap (data : List (Correspondence ℝ)) :
    vector H data = data.flatMap fun c => List.ofFn (block H c) := by
  unfold vector
  refine List.flatMap_congr fun c _ => ?_
  by_cases h : Passes H c
  · have hself : List.map ErrorVector.penalize (List.ofFn (shift H c)) = List.ofFn (shift H c) :=
      List.map_id _
    simp only [correction?_eq_of_passes H c h, block, if_pos h, hself]
  · simp only [correction?_eq_none H c h, block, if_neg h]
    rfl

/-- The contribution of a correspondence is at its place in the vector. -/
theorem vector_append_cons (before after : List (Correspondence ℝ)) :
    vector H (before ++ c :: after) =
      vector H before ++ List.ofFn (block H c) ++ vector H after := by
  simp only [vector_eq_flatMap, List.flatMap_append, List.flatMap_cons, List.append_assoc]

end Shift

section Shortest

variable {H : Matrix3 ℝ} {c : Correspondence ℝ}

/-- The determinant of the products of the derivatives is not negative. -/
theorem gramDeterminant_nonneg : 0 ≤ gramDeterminant (jacobian H c) :=
  le_trans (by positivity) pow_four_le_gramDeterminant

/-- The determinant is not zero if it passes its test. -/
theorem Passes.gramDeterminant_ne_zero (h : Passes H c) : gramDeterminant (jacobian H c) ≠ 0 := by
  intro hzero
  rw [Passes, hzero, abs_zero] at h
  exact absurd h (not_lt.mpr (Exact.decimal_pos Nat.one_pos 300).le)

/-- The shift cancels the errors to first order. -/
theorem Passes.mulVec_shift (h : Passes H c) :
    (derivatives H c).mulVec (shift H c) = -errorsAt H (coordinates c) := by
  obtain ⟨hfirst, hsecond⟩ :=
    multipliers_spec (jacobian H c) (errors H c) h.gramDeterminant_ne_zero
  have hcorrespondence : ofCoordinates (coordinates c) = c := rfl
  simp only [shift]
  rw [Matrix.mulVec_mulVec, derivatives_mul_transpose, errorsAt, hcorrespondence]
  funext i
  fin_cases i
  · simp [Matrix.mulVec, dotProduct, Fin.sum_univ_two]
    linarith
  · simp [Matrix.mulVec, dotProduct, Fin.sum_univ_two]
    linarith

/-- A shift is orthogonal to every change that does not change the errors to first order. -/
theorem dotProduct_shift {v : Fin 4 → ℝ} (hv : (derivatives H c).mulVec v = 0) :
    dotProduct (shift H c) v = 0 := by
  simp only [shift]
  rw [Matrix.mulVec_transpose, ← Matrix.dotProduct_mulVec, hv, dotProduct_zero]

/-- A change of the coordinates that cancels the errors to first order, and is the shortest one that
does so. -/
structure Shortest (H : Matrix3 ℝ) (c : Correspondence ℝ) (v : Fin 4 → ℝ) : Prop where
  solves : (derivatives H c).mulVec v = -errorsAt H (coordinates c)
  least : ∀ other, (derivatives H c).mulVec other = -errorsAt H (coordinates c) →
    Scalar.norm (List.ofFn v) ≤ Scalar.norm (List.ofFn other)

/-- The shift of a correspondence that passes the test is the shortest change that cancels the
errors. -/
theorem Passes.shortest_shift (h : Passes H c) : Shortest H c (shift H c) := by
  refine ⟨h.mulVec_shift, fun other hother => ?_⟩
  obtain ⟨rest, rfl⟩ : ∃ rest, other = shift H c + rest := ⟨other - shift H c, by simp⟩
  have hrest : (derivatives H c).mulVec rest = 0 := by
    rwa [Matrix.mulVec_add, h.mulVec_shift, add_eq_left] at hother
  rw [Exact.norm_ofFn, Exact.norm_ofFn]
  apply Real.sqrt_le_sqrt
  calc dotProduct (shift H c) (shift H c)
      ≤ dotProduct (shift H c) (shift H c) + dotProduct rest rest :=
        le_add_of_nonneg_right (Finset.sum_nonneg fun i _ => mul_self_nonneg (rest i))
    _ = dotProduct (shift H c + rest) (shift H c + rest) := by
        rw [add_dotProduct, dotProduct_add, dotProduct_add, dotProduct_comm rest (shift H c),
          dotProduct_shift hrest]
        ring

/-- There is nothing to shift exactly if there are no errors. -/
theorem Passes.shift_eq_zero_iff (h : Passes H c) : shift H c = 0 ↔ errors H c = (0, 0) := by
  constructor
  · intro hzero
    have herrors := h.mulVec_shift
    rw [hzero, Matrix.mulVec_zero, eq_comm, neg_eq_zero] at herrors
    exact Prod.ext (congrFun herrors 0) (congrFun herrors 1)
  · intro herrors
    have hnone : (![-0, -0] : Fin 2 → ℝ) = 0 := by
      funext i
      fin_cases i <;> simp
    have hmultipliers : multipliers (jacobian H c) (0, 0) = (0, 0) := by simp [multipliers]
    simp only [shift, herrors, hmultipliers, hnone, Matrix.mulVec_zero]

/-- The origin matched with a point. -/
def fromOrigin (u v : ℝ) : Correspondence ℝ := ⟨⟨0, 0⟩, ⟨u, v⟩⟩

variable (u v : ℝ)

/-- The determinant of the identity at the origin. -/
theorem gramDeterminant_fromOrigin :
    gramDeterminant (jacobian Matrix3.one (fromOrigin u v)) = 4 := by
  norm_num [gramDeterminant, jacobian, fromOrigin, Matrix3.one, Matrix3.apply, Matrix3.act,
    Scalar.dot]

/-- Under the identity each of two points has to go half of the way to the other. -/
theorem shift_fromOrigin :
    shift Matrix3.one (fromOrigin u v) = ![u / 2, v / 2, -u / 2, -v / 2] := by
  have hmultipliers : multipliers (jacobian Matrix3.one (fromOrigin u v))
      (errors Matrix3.one (fromOrigin u v)) = (v / 2, -u / 2) := by
    unfold multipliers
    rw [gramDeterminant_fromOrigin]
    norm_num [jacobian, errors, fromOrigin, Matrix3.one, Matrix3.apply, Matrix3.act, Scalar.dot]
    constructor <;> ring
  simp only [shift, hmultipliers]
  funext j
  fin_cases j <;>
    norm_num [derivatives, jacobian, fromOrigin, Matrix3.one, Matrix3.apply, Matrix3.act,
      Matrix.mulVec, dotProduct, Fin.sum_univ_two] <;> ring

/-- The bound of the determinant is below one. -/
theorem determinantBound_lt_one : (determinantBound : ℝ) < 1 := by
  rw [determinantBound, Exact.decimal_eq, Nat.cast_one]
  exact (div_lt_one (by positivity)).mpr (one_lt_pow₀ (by norm_num) (by decide))

/-- The identity passes the test at the origin. -/
theorem passes_fromOrigin : Passes Matrix3.one (fromOrigin u v) := by
  rw [Passes, gramDeterminant_fromOrigin]
  exact lt_trans determinantBound_lt_one (by norm_num)

/-- The vector of the origin matched with a point at distance five. -/
theorem vector_fromOrigin : vector Matrix3.one [fromOrigin 3 4] = [3 / 2, 2, -3 / 2, -2] := by
  rw [vector_eq_flatMap, List.flatMap_singleton, block, if_pos (passes_fromOrigin 3 4),
    shift_fromOrigin]
  norm_num

variable (H c)

/-- The rows of derivatives are the derivative of the errors by the coordinates.  A correspondence
whose derivatives pass the test contributes the shortest change of its coordinates that cancels the
errors to first order, which is zero exactly if both errors are.  The determinant is at least the
fourth power of the last coordinate of the image, so that every image whose fourth power is above
the bound passes the test. -/
theorem vector_shortest :
    HasFDerivAt (errorsAt H) (derivatives H c).mulVecLin.toContinuousLinearMap (coordinates c) ∧
    (determinantBound < |(derivatives H c * (derivatives H c).transpose).det| →
      ∃ v : Fin 4 → ℝ, (∀ before after, vector H (before ++ c :: after) =
          vector H before ++ List.ofFn v ++ vector H after) ∧
        Shortest H c v ∧ (v = 0 ↔ errors H c = (0, 0))) ∧
    (H.apply c.source).w ^ 4 ≤ (derivatives H c * (derivatives H c).transpose).det ∧
    (determinantBound < |(H.apply c.source).w| ^ 4 →
      determinantBound < |(derivatives H c * (derivatives H c).transpose).det|) := by
  rw [det_derivatives]
  refine ⟨hasFDerivAt_errorsAt H c, fun h => ?_, pow_four_le_gramDeterminant, fun h => ?_⟩
  · have hpasses : Passes H c := h
    refine ⟨shift H c, ?_, hpasses.shortest_shift, hpasses.shift_eq_zero_iff⟩
    intro before after
    rw [vector_append_cons, block, if_pos hpasses]
  · rw [Even.pow_abs (by decide)] at h
    exact lt_of_lt_of_le h (le_trans pow_four_le_gramDeterminant (le_abs_self _))

/-- The origin and a point at distance five meet in the middle. -/
theorem vector_shortest_displaced :
    let c := fromOrigin 3 4
    determinantBound <
        |(derivatives Matrix3.one c * (derivatives Matrix3.one c).transpose).det| ∧
      vector Matrix3.one [c] = [3 / 2, 2, -3 / 2, -2] ∧
      Shortest Matrix3.one c ![3 / 2, 2, -3 / 2, -2] := by
  intro c
  have hpasses : determinantBound <
      |(derivatives Matrix3.one c * (derivatives Matrix3.one c).transpose).det| := by
    rw [det_derivatives]
    exact passes_fromOrigin 3 4
  obtain ⟨v, hplace, hshortest, -⟩ := (vector_shortest Matrix3.one c).2.1 hpasses
  have hvector : List.ofFn v = List.ofFn ![3 / 2, 2, -3 / 2, -2] := by
    calc List.ofFn v = vector Matrix3.one [c] := by simpa [vector] using (hplace [] []).symm
      _ = [3 / 2, 2, -3 / 2, -2] := vector_fromOrigin
      _ = List.ofFn ![3 / 2, 2, -3 / 2, -2] := by simp
  exact ⟨hpasses, vector_fromOrigin, List.ofFn_injective hvector ▸ hshortest⟩

end Shortest

section Factor

variable (H : Matrix3 ℝ) (c : Correspondence ℝ) {k : ℝ}

/-- A factor of the matrix is a factor of the derivatives. -/
theorem jacobian_scale (k : ℝ) : jacobian (H.scale k) c =
    ((jacobian H c).1.map (k * ·), (jacobian H c).2.map (k * ·)) := by
  have hw : ((H.scale k).apply c.source).w = k * (H.apply c.source).w :=
    congrArg Homogeneous.w (H.scale_act k _)
  simp only [jacobian, hw, List.map_cons, List.map_nil, Prod.mk.injEq, List.cons.injEq, and_true]
  simp only [Matrix3.scale, Matrix3.map]
  refine ⟨⟨?_, ?_, ?_⟩, ?_, ?_, ?_, ?_⟩ <;> ring

/-- A factor of the matrix is a factor of the errors. -/
theorem errors_scale (k : ℝ) :
    errors (H.scale k) c = (k * (errors H c).1, k * (errors H c).2) := by
  have himage : (H.scale k).apply c.source = (H.apply c.source).scale k := H.scale_act k _
  simp only [errors, himage, Homogeneous.scale, Prod.mk.injEq]
  constructor <;> ring

/-- A factor of the matrix counts four times in the determinant. -/
theorem gramDeterminant_scale (k : ℝ) :
    gramDeterminant (jacobian (H.scale k) c) = k ^ 4 * gramDeterminant (jacobian H c) := by
  rw [jacobian_scale]
  simp only [gramDeterminant, Exact.dot_map_mul]
  ring

/-- The multipliers are divided by a factor of the matrix. -/
theorem multipliers_scale (hk : k ≠ 0) :
    multipliers (jacobian (H.scale k) c) (errors (H.scale k) c) =
      (k⁻¹ * (multipliers (jacobian H c) (errors H c)).1,
        k⁻¹ * (multipliers (jacobian H c) (errors H c)).2) := by
  have hgram := gramDeterminant_scale H c k
  rw [jacobian_scale] at hgram
  rw [jacobian_scale, errors_scale]
  simp only [multipliers, hgram, Exact.dot_map_mul, div_eq_mul_inv, mul_inv, Prod.mk.injEq]
  generalize (gramDeterminant (jacobian H c))⁻¹ = g
  constructor <;> field_simp

/-- A factor of the matrix is a factor of the matrix of derivatives. -/
theorem derivatives_scale (k : ℝ) : derivatives (H.scale k) c = k • derivatives H c := by
  have hentry : ∀ (l : List ℝ) (j : Fin 4), (l.map (k * ·)).getD j 0 = k * l.getD j 0 := by
    intro l j
    rw [List.getD_eq_getElem?_getD, List.getD_eq_getElem?_getD, List.getElem?_map]
    cases l[(j : ℕ)]? <;> simp
  ext i j
  unfold derivatives
  rw [jacobian_scale]
  fin_cases i
  · exact hentry _ j
  · exact hentry _ j

/-- The factor of a transform cancels in its shifts. -/
theorem shift_scale (hk : k ≠ 0) : shift (H.scale k) c = shift H c := by
  have hfactor : ∀ a b : ℝ, ![-(k⁻¹ * a), -(k⁻¹ * b)] = k⁻¹ • ![-a, -b] := by
    intro a b
    simp
  simp only [shift, multipliers_scale H c hk, derivatives_scale, hfactor]
  rw [Matrix.transpose_smul, Matrix.mulVec_smul, Matrix.smul_mulVec, smul_smul,
    inv_mul_cancel₀ hk, one_smul]

/-- A multiple passes the test if the fourth power of the factor times the determinant is large
enough. -/
theorem passes_scale_iff (k : ℝ) : Passes (H.scale k) c ↔
    determinantBound < k ^ 4 * gramDeterminant (jacobian H c) := by
  have hnonneg : 0 ≤ k ^ 4 * gramDeterminant (jacobian H c) :=
    mul_nonneg (by positivity) gramDeterminant_nonneg
  rw [Passes, gramDeterminant_scale, abs_of_nonneg hnonneg]

/-- A correspondence contributes the same to a multiple of a transform exactly if its test turns out
the same, unless its shift happens to consist of penalties. -/
theorem block_scale_iff (hk : k ≠ 0) : block (H.scale k) c = block H c ↔
    (Passes (H.scale k) c ↔ Passes H c) ∨ shift H c = fun _ => ErrorVector.penalty := by
  unfold block
  rw [shift_scale H c hk]
  by_cases hscaled : Passes (H.scale k) c <;> by_cases hpasses : Passes H c <;>
    simp [hscaled, hpasses, eq_comm]

/-- Vectors of blocks are the same exactly if the blocks are. -/
theorem vector_eq_iff (H K : Matrix3 ℝ) (data : List (Correspondence ℝ)) :
    vector K data = vector H data ↔ ∀ c ∈ data, block K c = block H c := by
  rw [vector_eq_flatMap, vector_eq_flatMap]
  induction data with
  | nil => simp
  | cons c rest ih =>
    rw [List.flatMap_cons, List.flatMap_cons, List.forall_mem_cons, ← ih]
    constructor
    · intro h
      obtain ⟨hfirst, hrest⟩ := List.append_inj h (by simp)
      exact ⟨List.ofFn_injective hfirst, hrest⟩
    · rintro ⟨hfirst, hrest⟩
      rw [hfirst, hrest]

/-- A multiple of a transform has the same corrections exactly if the test of the determinant turns
out the same for every correspondence, unless a correction happens to consist of penalties.  Then
the cost is the same as well. -/
theorem vector_scale_iff [Spectral ℝ] (data : List (Correspondence ℝ)) (hk : k ≠ 0) :
    (vector (H.scale k) data = vector H data ↔ ∀ c ∈ data,
      (Passes (H.scale k) c ↔ Passes H c) ∨ shift H c = fun _ => ErrorVector.penalty) ∧
    (∀ c, Passes (H.scale k) c ↔ determinantBound < k ^ 4 * gramDeterminant (jacobian H c)) ∧
    ((∀ c ∈ data, Passes (H.scale k) c ↔ Passes H c) →
      Refinement.sampson.cost (H.scale k) data = Refinement.sampson.cost H data) := by
  have hsame : vector (H.scale k) data = vector H data ↔ ∀ c ∈ data,
      (Passes (H.scale k) c ↔ Passes H c) ∨ shift H c = fun _ => ErrorVector.penalty := by
    rw [vector_eq_iff]
    exact forall₂_congr fun c _ => block_scale_iff H c hk
  refine ⟨hsame, fun c => passes_scale_iff H c k, fun h => ?_⟩
  have hvector : vector (H.scale k) data = vector H data :=
    hsame.mpr fun c hc => Or.inl (h c hc)
  simp only [Refinement.cost, Refinement.vector, hvector]

/-- A factor of two does not matter to the origin matched with a point. -/
theorem vector_scale_iff_doubled :
    letI : Spectral ℝ := Spectral.chosen
    let data := [fromOrigin 3 4]
    (2 : ℝ) ≠ 0 ∧ vector (Matrix3.one.scale 2) data = vector Matrix3.one data ∧
      Refinement.sampson.cost (Matrix3.one.scale 2) data =
        Refinement.sampson.cost Matrix3.one data := by
  intro data
  let spectral : Spectral ℝ := Spectral.chosen
  have htwo : (2 : ℝ) ≠ 0 := two_ne_zero
  obtain ⟨hvector, hpasses, hcost⟩ := vector_scale_iff Matrix3.one data htwo
  have hscaled : Passes (Matrix3.one.scale 2) (fromOrigin 3 4) := by
    rw [hpasses, gramDeterminant_fromOrigin]
    exact lt_trans determinantBound_lt_one (by norm_num)
  have hsame : ∀ c ∈ data, (Passes (Matrix3.one.scale 2) c ↔ Passes Matrix3.one c) := by
    intro c hc
    obtain rfl := List.mem_singleton.mp hc
    exact iff_of_true hscaled (passes_fromOrigin 3 4)
  exact ⟨htwo, hvector.mpr fun c hc => Or.inl (hsame c hc), hcost hsame⟩

/-- With a small factor the correction of the same pair is replaced by penalties, although the
identity is not singular and a factor does not change the transform. -/
theorem not_vector_scale_of_small_factor :
    letI : Spectral ℝ := Spectral.chosen
    let data := [fromOrigin 3 4]
    (Matrix3.one : Matrix3 ℝ).isNonSingular Matrix3.rankTolerance = true ∧
      (1 / 10 ^ 76 : ℝ) ≠ 0 ∧
      vector Matrix3.one data = [3 / 2, 2, -3 / 2, -2] ∧
      vector (Matrix3.one.scale (1 / 10 ^ 76)) data = [10 ^ 6, 10 ^ 6, 10 ^ 6, 10 ^ 6] ∧
      Refinement.sampson.cost Matrix3.one data = 25 / 2 ∧
      Refinement.sampson.cost (Matrix3.one.scale (1 / 10 ^ 76)) data = 4 * 10 ^ 12 := by
  intro data
  let spectral : Spectral ℝ := Spectral.chosen
  have hexact : Spectral.Exact := Spectral.chosen_exact
  have hregular : (Matrix3.one : Matrix3 ℝ).isNonSingular Matrix3.rankTolerance = true :=
    Matrix3.isNonSingular_dilation le_rfl (by norm_num)
  have hfails : ¬ Passes (Matrix3.one.scale (1 / 10 ^ 76)) (fromOrigin 3 4) := by
    rw [passes_scale_iff, gramDeterminant_fromOrigin, not_lt, determinantBound, Exact.decimal_eq,
      Nat.cast_one]
    calc (1 / 10 ^ 76 : ℝ) ^ 4 * 4 = 4 / 10 ^ 4 * (1 / 10 ^ 300) := by
          rw [div_pow, one_pow, ← pow_mul, show 76 * 4 = 4 + 300 from rfl, pow_add]
          field_simp
      _ ≤ 1 / 10 ^ 300 := mul_le_of_le_one_left (by positivity) (by norm_num)
  have hone : vector Matrix3.one data = [3 / 2, 2, -3 / 2, -2] := vector_fromOrigin
  have hsmall : vector (Matrix3.one.scale (1 / 10 ^ 76)) data =
      [10 ^ 6, 10 ^ 6, 10 ^ 6, 10 ^ 6] := by
    have hpenalty : (ErrorVector.penalty : ℝ) = 10 ^ 6 := by norm_num [ErrorVector.penalty]
    rw [vector_eq_flatMap, List.flatMap_singleton, block, if_neg hfails, hpenalty]
    rfl
  refine ⟨hregular, by norm_num, hone, hsmall, ?_, ?_⟩
  · simp only [Refinement.cost, Refinement.vector, hone]
    norm_num [Scalar.dot]
  · simp only [Refinement.cost, Refinement.vector, hsmall]
    norm_num [Scalar.dot]

end Factor

end Sampson

end Projectivity
