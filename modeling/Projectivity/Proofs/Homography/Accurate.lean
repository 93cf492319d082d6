import Projectivity.Proofs.Exact.Conditioning
import Projectivity.Proofs.Exact.Linear
import Projectivity.Proofs.Homography.Canonical

/-!
# Singular values in doubles

What is relied on of a singular value decomposition in doubles: its vectors have length
one and its values are the exact ones, up to rounding.  A matrix that counts as
non-singular by such values is not singular, and rounding it to its canonical scale does
not make it singular.
-/

set_option autoImplicit false

namespace Projectivity

open Double

/-- The numbers of the entries of a matrix. -/
def Matrix3.numbers (A : Matrix3 Float) : Matrix3 ℝ := A.map fun x => ((number x : ℚ) : ℝ)

/-- A singular value decomposition in doubles that is accurate.  The vectors have length one, and
the values are off by a small part of the largest one, unless all entries are next to zero or some
are next to infinity. -/
class Spectral.Accurate [Spectral Float] : Prop where
  vector_length : ∀ (rows : List (List Float)) (v : List Float),
    v ∈ (Spectral.spectrum rows).vectors → (∀ x ∈ v, x.isFinite = true) →
      |(v.map fun x => number x ^ 2).sum - 1| ≤ 2 ^ (-20 : ℤ)
  values_near : ∀ (A : Matrix3 Float) (first second last : Float),
    (∀ x ∈ A.entries, Within 600 x) → (∃ x ∈ A.entries, 2 ^ (-600 : ℤ) ≤ |number x|) →
      (Spectral.spectrum A.rows).values = [first, second, last] →
        first.isFinite = true ∧ ∀ d : Decomposition A.numbers.toMatrix,
          |(number first : ℝ) - d.values 0| ≤ 2 ^ (-45 : ℤ) * d.values 0 ∧
            |(number last : ℝ) - d.values 2| ≤ 2 ^ (-45 : ℤ) * d.values 0

namespace Decomposition

variable {M N : Matrix (Fin 3) (Fin 3) ℝ}

/-- A matrix whose multiple is nearer to another one than a third of the smallest singular value of
that one is not singular. -/
theorem det_ne_zero_of_near (d : Decomposition N) {n ε : ℝ} (hε : 0 ≤ ε)
    (hnear : ∀ i j, |n * M i j - N i j| ≤ ε) (hlast : 3 * ε < d.values 2) : M.det ≠ 0 := by
  intro hdet
  obtain ⟨x, hne, hkernel⟩ := Matrix.exists_mulVec_eq_zero_iff.mpr hdet
  have hnonneg : 0 ≤ dotProduct x x := Finset.sum_nonneg fun j _ => mul_self_nonneg (x j)
  have hpos : 0 < dotProduct x x := hnonneg.lt_of_ne' (mt dotProduct_self_eq_zero.mp hne)
  have hrow : ∀ i, (N.mulVec x) i ^ 2 ≤ 3 * ε ^ 2 * dotProduct x x := by
    intro i
    -- The other matrix takes the vector to zero, so that only the difference is left.
    have hdifference : (N.mulVec x) i = ∑ j, (N i j - n * M i j) * x j := by
      have hzero : ∑ j, M i j * x j = 0 := congrFun hkernel i
      simp only [sub_mul, Finset.sum_sub_distrib, mul_assoc, ← Finset.mul_sum, hzero, mul_zero,
        sub_zero]
      rfl
    have hentries : ∑ j, (N i j - n * M i j) ^ 2 ≤ 3 * ε ^ 2 := by
      have hentry : ∀ j, (N i j - n * M i j) ^ 2 ≤ ε ^ 2 := fun j =>
        sq_le_sq' (by linarith [(abs_le.mp (hnear i j)).2]) (by linarith [(abs_le.mp (hnear i j)).1])
      calc ∑ j, (N i j - n * M i j) ^ 2 ≤ ∑ _j : Fin 3, ε ^ 2 :=
            Finset.sum_le_sum fun j _ => hentry j
        _ = 3 * ε ^ 2 := by simp
    calc (N.mulVec x) i ^ 2 ≤ (∑ j, (N i j - n * M i j) ^ 2) * ∑ j, x j ^ 2 := by
          rw [hdifference]
          exact Finset.sum_mul_sq_le_sq_mul_sq _ _ _
      _ = (∑ j, (N i j - n * M i j) ^ 2) * dotProduct x x := by simp only [dotProduct, pow_two]
      _ ≤ 3 * ε ^ 2 * dotProduct x x := mul_le_mul_of_nonneg_right hentries hnonneg
  have himage : dotProduct (N.mulVec x) (N.mulVec x) ≤ (3 * ε) ^ 2 * dotProduct x x := by
    calc dotProduct (N.mulVec x) (N.mulVec x) = ∑ i, (N.mulVec x) i ^ 2 := by
          simp only [dotProduct, pow_two]
      _ ≤ ∑ _i : Fin 3, 3 * ε ^ 2 * dotProduct x x := Finset.sum_le_sum fun i _ => hrow i
      _ = (3 * ε) ^ 2 * dotProduct x x := by
          simp only [Finset.sum_const, Finset.card_univ, Fintype.card_fin, nsmul_eq_mul]
          ring
  have hstretch := d.le_dotProduct_mulVec_self (fun j => d.descending (Fin.le_last j)) x
  have hsquare : (3 * ε) ^ 2 < d.values 2 ^ 2 := pow_lt_pow_left₀ hlast (by positivity) two_ne_zero
  exact absurd (hstretch.trans himage) (not_le.mpr (mul_lt_mul_of_pos_right hsquare hpos))

end Decomposition

namespace Matrix3

variable {B : Matrix3 Float}

/-- The entries of the numbers are the numbers of the entries. -/
theorem entries_numbers (A : Matrix3 Float) :
    A.numbers.entries = A.entries.map fun x => ((number x : ℚ) : ℝ) := rfl

/-- No entry is larger than the largest singular value. -/
theorem abs_entry_le {A : Matrix3 ℝ} (d : Decomposition A.toMatrix) :
    ∀ x ∈ A.entries, |x| ≤ d.values 0 := by
  have hcolumn : ∀ {a b c : ℝ}, a ^ 2 + b ^ 2 + c ^ 2 ≤ d.values 0 ^ 2 →
      |a| ≤ d.values 0 ∧ |b| ≤ d.values 0 ∧ |c| ≤ d.values 0 := fun {a b c} h =>
    ⟨abs_le_of_sq_le_sq (by linarith [sq_nonneg b, sq_nonneg c]) (d.nonneg 0),
      abs_le_of_sq_le_sq (by linarith [sq_nonneg a, sq_nonneg c]) (d.nonneg 0),
      abs_le_of_sq_le_sq (by linarith [sq_nonneg a, sq_nonneg b]) (d.nonneg 0)⟩
  have h1 := squaredLength_act_le d ⟨1, 0, 0⟩
  have h2 := squaredLength_act_le d ⟨0, 1, 0⟩
  have h3 := squaredLength_act_le d ⟨0, 0, 1⟩
  simp only [act, Homogeneous.squaredLength, mul_one, mul_zero, add_zero, zero_add, one_pow,
    zero_pow two_ne_zero] at h1 h2 h3
  obtain ⟨h11, h21, h31⟩ := hcolumn h1
  obtain ⟨h12, h22, h32⟩ := hcolumn h2
  obtain ⟨h13, h23, h33⟩ := hcolumn h3
  rw [forall_mem_entries]
  exact ⟨⟨h11, h12, h13⟩, ⟨h21, h22, h23⟩, h31, h32, h33⟩

/-- A power of two is the same among the real numbers. -/
theorem cast_two_zpow (n : ℤ) : (((2 : ℚ) ^ n : ℚ) : ℝ) = 2 ^ n := by
  rw [Rat.cast_zpow, Rat.cast_ofNat]

/-- The number of an entry is not larger than the largest singular value. -/
theorem cast_abs_number_le (d : Decomposition B.numbers.toMatrix) {x : Float}
    (hx : x ∈ B.entries) : ((|number x| : ℚ) : ℝ) ≤ d.values 0 := by
  rw [Rat.cast_abs]
  exact abs_entry_le d _ (B.entries_numbers ▸ List.mem_map_of_mem hx)

/-- The largest singular value is not too small to be squared. -/
theorem Scalable.le_largest (hB : B.Scalable) (d : Decomposition B.numbers.toMatrix) :
    2 ^ (-538 : ℤ) ≤ d.values 0 := by
  obtain ⟨x, hx, hge⟩ := exists_large_of_norm hB.finite hB.pos
  rw [← cast_two_zpow]
  exact (Rat.cast_le.mpr hge).trans (cast_abs_number_le d hx)

/-- The tolerance of the test for singularity is not next to zero. -/
theorem number_rankTolerance : 2 ^ (-40 : ℤ) ≤ number (rankTolerance : Float) ∧
    number (rankTolerance : Float) ≤ 1 := by
  have hunpack : (rankTolerance : Float).toModel.unpack =
      .finite .positive 4951760157141521 (-92) (by norm_num) := rfl
  rw [number_of_unpack hunpack]
  norm_num

/-- A value that is above the tolerance part of another one is not much smaller. -/
theorem lt_of_rankTolerance {first last : Float} (hfinite : first.isFinite = true)
    (hfirst : 2 ^ (-539 : ℤ) ≤ number first) (h : rankTolerance * first < last) :
    2 ^ (-41 : ℤ) * number first < number last := by
  obtain ⟨hlow, hhigh⟩ := number_rankTolerance
  have htolerance : (rankTolerance : Float).isFinite = true := rfl
  have hpos : 0 < number first := (two_zpow_pos _).trans_le hfirst
  have hproduct := isNearestTo_mul htolerance hfinite
  have hexact : 2 ^ (-40 : ℤ) * number first ≤ |number (rankTolerance : Float) * number first| :=
    (mul_le_mul_of_nonneg_right hlow hpos.le).trans (le_abs_self _)
  have hsize : |number (rankTolerance : Float) * number first| ≤ |number first| := by
    rw [abs_mul, abs_of_nonneg ((two_zpow_pos _).le.trans hlow)]
    exact mul_le_of_le_one_left (abs_nonneg _) hhigh
  have hhalf := hproduct.half_le_abs_number ?_ hexact (hproduct.isFinite_of_le hfinite hsize)
  · have hnonneg := hproduct.nonneg (mul_nonneg ((two_zpow_pos _).le.trans hlow) hpos.le)
    rw [abs_of_nonneg hnonneg] at hhalf
    obtain ⟨hnan, hnan'⟩ := isNaN_of_lt h
    calc 2 ^ (-41 : ℤ) * number first = 2 ^ (-40 : ℤ) * number first / 2 := by norm_num; ring
      _ ≤ number (rankTolerance * first) := hhalf
      _ < number last := (lt_iff_number hnan hnan').mp h
  · calc (2 : ℚ) ^ (-1022 : ℤ) ≤ 2 ^ (-40 + -539 : ℤ) := zpow_le_zpow_right₀ one_le_two (by norm_num)
      _ = 2 ^ (-40 : ℤ) * 2 ^ (-539 : ℤ) := two_zpow_add _ _
      _ ≤ 2 ^ (-40 : ℤ) * number first := mul_le_mul_of_nonneg_left hfirst (two_zpow_pos _).le

/-- What is off by a small part is more than half of it. -/
theorem half_le_of_near {x v : ℝ} (hv : 0 ≤ v) (h : |x - v| ≤ 2 ^ (-45 : ℤ) * v) :
    2 ^ (-1 : ℤ) * v ≤ x := by
  have hpart : (2 : ℝ) ^ (-45 : ℤ) * v ≤ 2 ^ (-1 : ℤ) * v :=
    mul_le_mul_of_nonneg_right (zpow_le_zpow_right₀ one_le_two (by norm_num)) hv
  have hclose := (neg_le_of_abs_le h).trans' (neg_le_neg hpart)
  have hsplit : (2 : ℝ) ^ (-1 : ℤ) * v = v / 2 := by rw [zpow_neg_one, inv_mul_eq_div]
  rw [hsplit] at hclose ⊢
  linarith only [hclose]

/-- The values of an accurate decomposition are near the exact ones. -/
theorem Scalable.values_near [Spectral Float] [Spectral.Accurate] (hB : B.Scalable)
    {first second last : Float} (h : (Spectral.spectrum B.rows).values = [first, second, last])
    (d : Decomposition B.numbers.toMatrix) : first.isFinite = true ∧
      |(number first : ℝ) - d.values 0| ≤ 2 ^ (-45 : ℤ) * d.values 0 ∧
        |(number last : ℝ) - d.values 2| ≤ 2 ^ (-45 : ℤ) * d.values 0 := by
  obtain ⟨x, hx, hge⟩ := exists_large_of_norm hB.finite hB.pos
  obtain ⟨hfinite, hnear⟩ := Spectral.Accurate.values_near B first second last
    (fun x hx => (within_of_norm hB.finite hx).mono (by norm_num))
    ⟨x, hx, (zpow_le_zpow_right₀ one_le_two (by norm_num)).trans hge⟩ h
  exact ⟨hfinite, hnear d⟩

/-- The values of an accurate decomposition of a matrix that counts as non-singular tell its exact
singular values apart from zero. -/
theorem Scalable.values_bounds [Spectral Float] [Spectral.Accurate] (hB : B.Scalable)
    (h : B.isNonSingular rankTolerance = true) (d : Decomposition B.numbers.toMatrix) :
    2 ^ (-43 : ℤ) * d.values 0 ≤ d.values 2 := by
  unfold isNonSingular at h
  rw [Bool.and_eq_true] at h
  obtain ⟨-, h⟩ := h
  split at h
  · rename_i first second last hvalues
    rw [Bool.and_eq_true, decide_eq_true_eq, decide_eq_true_eq] at h
    obtain ⟨hfinite, hfirst, hlast⟩ := hB.values_near hvalues d
    have hnonneg := d.nonneg 0
    have hhalf := half_le_of_near hnonneg hfirst
    have hlow : 2 ^ (-539 : ℤ) ≤ number first := by
      rw [← Rat.cast_le (K := ℝ), cast_two_zpow]
      calc (2 : ℝ) ^ (-539 : ℤ) = 2 ^ (-1 : ℤ) * 2 ^ (-538 : ℤ) := by
            rw [← zpow_add₀ two_ne_zero]
            norm_num
        _ ≤ 2 ^ (-1 : ℤ) * d.values 0 :=
            mul_le_mul_of_nonneg_left (hB.le_largest d) (zpow_nonneg zero_le_two _)
        _ ≤ number first := hhalf
    have hgap : (2 : ℝ) ^ (-41 : ℤ) * number first < number last := by
      rw [← cast_two_zpow, ← Rat.cast_mul, Rat.cast_lt]
      exact lt_of_rankTolerance hfinite hlow h.2
    have hscaled : 2 ^ (-42 : ℤ) * d.values 0 ≤ (2 : ℝ) ^ (-41 : ℤ) * number first := by
      rw [show (-42 : ℤ) = -41 + -1 by norm_num, zpow_add₀ two_ne_zero, mul_assoc]
      exact mul_le_mul_of_nonneg_left hhalf (zpow_nonneg zero_le_two _)
    have hrest : (2 : ℝ) ^ (-45 : ℤ) * d.values 0 ≤ 2 ^ (-43 : ℤ) * d.values 0 :=
      mul_le_mul_of_nonneg_right (zpow_le_zpow_right₀ one_le_two (by norm_num)) hnonneg
    have hdouble : (2 : ℝ) ^ (-42 : ℤ) * d.values 0 = 2 * (2 ^ (-43 : ℤ) * d.values 0) := by
      rw [show (-42 : ℤ) = -43 + 1 by norm_num, zpow_add_one₀ two_ne_zero]
      ring
    rw [hdouble] at hscaled
    linarith only [hscaled, hgap, hrest, le_of_abs_le hlast]
  · cases h

/-- An entry that is divided by the norm and multiplied by it again is off by its rounding. -/
theorem Scalable.abs_norm_mul_sub_le (hB : B.Scalable) : ∀ x ∈ B.entries,
    |number B.norm * number (x / B.norm) - number x| ≤
      2 ^ (-53 : ℤ) * |number x| + number B.norm * 2 ^ (-1075 : ℤ) := by
  intro x hx
  have hfinite : (x / B.norm).isFinite = true := by
    have hall := isFinite_iff.mp hB.isFinite_scaleDown
    exact hall _ (List.mem_map_of_mem (f := (· / B.norm)) hx)
  have herror := (isNearestTo_div (within_of_norm hB.finite hx).finite hB.finite
    hB.pos.ne').abs_sub_le hfinite
  have hpos := hB.pos
  generalize number (x / B.norm) = y at *
  have hfactor : number B.norm * y - number x =
      number B.norm * (y - number x / number B.norm) := by
    rw [mul_sub, mul_div_cancel₀ _ hpos.ne']
  rw [hfactor, abs_mul, abs_of_pos hpos]
  calc number B.norm * |y - number x / number B.norm| ≤ number B.norm *
        (2 ^ (-53 : ℤ) * |number x / number B.norm| + 2 ^ (-1075 : ℤ)) :=
        mul_le_mul_of_nonneg_left herror hpos.le
    _ = 2 ^ (-53 : ℤ) * |number x| + number B.norm * 2 ^ (-1075 : ℤ) := by
        rw [abs_div, abs_of_pos hpos]
        field_simp

/-- Division by the norm moves an entry by a small part of the largest singular value. -/
theorem Scalable.abs_scaleDown_sub_le (hB : B.Scalable) (d : Decomposition B.numbers.toMatrix) :
    ∀ x ∈ B.entries, |((number B.norm : ℚ) : ℝ) * (number (x / B.norm) : ℚ) - (number x : ℚ)| ≤
      2 ^ (-52 : ℤ) * d.values 0 := by
  intro x hx
  obtain ⟨y, hy, hplace⟩ := exists_norm_mul_le hB.finite hB.pos (by simp [entries])
  have herror : |number B.norm * number (x / B.norm) - number x| ≤
      2 ^ (-53 : ℤ) * |number x| + 2 ^ (-53 : ℤ) * |number y| :=
    (hB.abs_norm_mul_sub_le x hx).trans (add_le_add le_rfl hplace)
  have hpart : ∀ z ∈ B.entries,
      (2 : ℝ) ^ (-53 : ℤ) * ((|number z| : ℚ) : ℝ) ≤ 2 ^ (-53 : ℤ) * d.values 0 := fun z hz =>
    mul_le_mul_of_nonneg_left (cast_abs_number_le d hz) (zpow_nonneg zero_le_two _)
  calc |((number B.norm : ℚ) : ℝ) * (number (x / B.norm) : ℚ) - (number x : ℚ)|
      = ((|number B.norm * number (x / B.norm) - number x| : ℚ) : ℝ) := by
        rw [Rat.cast_abs, Rat.cast_sub, Rat.cast_mul]
    _ ≤ ((2 ^ (-53 : ℤ) * |number x| + 2 ^ (-53 : ℤ) * |number y| : ℚ) : ℝ) :=
        Rat.cast_le.mpr herror
    _ = 2 ^ (-53 : ℤ) * ((|number x| : ℚ) : ℝ) + 2 ^ (-53 : ℤ) * ((|number y| : ℚ) : ℝ) := by
        rw [Rat.cast_add, Rat.cast_mul, Rat.cast_mul, cast_two_zpow]
    _ ≤ 2 ^ (-53 : ℤ) * d.values 0 + 2 ^ (-53 : ℤ) * d.values 0 :=
        add_le_add (hpart x hx) (hpart y hy)
    _ = 2 ^ (-52 : ℤ) * d.values 0 := by
        rw [show (-52 : ℤ) = -53 + 1 by norm_num, zpow_add_one₀ two_ne_zero]
        ring

/-- A change of all signs changes the sign of the determinant. -/
theorem det_numbers_neg (A : Matrix3 Float) : (A.map (- ·)).numbers.det = -A.numbers.det := by
  simp only [numbers, map, det, number_neg, Rat.cast_neg]
  ring

/-- The canonical scale of a matrix that counts as non-singular is not singular. -/
theorem Scalable.det_canonicalScale_ne_zero [Spectral Float] [Spectral.Accurate] (hB : B.Scalable)
    (h : B.isNonSingular rankTolerance = true) : B.canonicalScale.numbers.det ≠ 0 := by
  obtain ⟨d⟩ := Decomposition.nonempty B.numbers.toMatrix
  have hlargest : 0 < d.values 0 := (zpow_pos two_pos _).trans_le (hB.le_largest d)
  have hsmallest := hB.values_bounds h d
  have herror := hB.abs_scaleDown_sub_le d
  rw [forall_mem_entries] at herror
  obtain ⟨⟨h11, h12, h13⟩, ⟨h21, h22, h23⟩, h31, h32, h33⟩ := herror
  have hdet : (B.scaleDown B.norm).numbers.det ≠ 0 := by
    rw [← det_toMatrix]
    refine d.det_ne_zero_of_near (n := ((number B.norm : ℚ) : ℝ)) (ε := 2 ^ (-52 : ℤ) * d.values 0)
      (mul_nonneg (zpow_nonneg zero_le_two _) hlargest.le) (fun i j => ?_)
      (lt_of_lt_of_le ?_ hsmallest)
    · fin_cases i <;> fin_cases j
      exacts [h11, h12, h13, h21, h22, h23, h31, h32, h33]
    · rw [← mul_assoc]
      exact mul_lt_mul_of_pos_right (by norm_num) hlargest
  unfold canonicalScale
  simp only
  split_ifs
  · rw [det_numbers_neg]
    exact neg_ne_zero.mpr hdet
  · exact hdet

/-- The determinant of a matrix of zeros is zero. -/
theorem det_numbers_eq_zero {A : Matrix3 Float} (h : ∀ x ∈ A.entries, IsZero x) :
    A.numbers.det = 0 := by
  have hzero : ∀ x ∈ A.entries, ((number x : ℚ) : ℝ) = 0 := fun x hx => by
    rw [(h x hx).number_eq, Rat.cast_zero]
  rw [forall_mem_entries] at hzero
  obtain ⟨⟨h11, h12, h13⟩, -⟩ := hzero
  simp only [det, numbers, map, h11, h12, h13, zero_mul, sub_zero, add_zero]

/-- A matrix that counts as non-singular is finite. -/
theorem isFinite_of_isNonSingular [Spectral Float] {tolerance : Float}
    (h : B.isNonSingular tolerance = true) : B.isFinite = true := by
  unfold isNonSingular at h
  exact (Bool.and_eq_true _ _ ▸ h).1

/-- A matrix that counts as non-singular has a canonical scale that is finite and not singular
exactly if its norm is a positive double. -/
theorem canonicalScale_iff [Spectral Float] [Spectral.Accurate]
    (h : B.isNonSingular rankTolerance = true) :
    B.canonicalScale.isFinite = true ∧ B.canonicalScale.numbers.det ≠ 0 ↔ B.Scalable := by
  refine ⟨fun ⟨hfinite, hdet⟩ => ?_, fun hB =>
    ⟨hB.isFinite_canonicalScale, hB.det_canonicalScale_ne_zero h⟩⟩
  by_contra hB
  exact hdet (det_numbers_eq_zero (isZero_canonicalScale (isFinite_of_isNonSingular h) hB hfinite))

end Matrix3

/-- The coordinates of a correspondence, if they are finite, are far below the largest doubles. -/
structure Correspondence.Moderate (c : Correspondence Float) : Prop where
  source : c.source.Moderate
  destination : c.destination.Moderate

namespace Linear

variable {l : List Float} {data : List (Correspondence Float)} {A G : Matrix3 Float}

/-- The entries of a vector of length one. -/
theorem unit_bounds (h : |(l.map fun x => number x ^ 2).sum - 1| ≤ 2 ^ (-20 : ℤ)) :
    (∀ x ∈ l, |number x| ≤ 2 ^ 1) ∧ (l.length = 9 → ¬ ∀ x ∈ l, |number x| < 2 ^ (-2 : ℤ)) := by
  obtain ⟨hlow, hhigh⟩ := abs_le.mp h
  norm_num at hlow hhigh
  constructor
  · intro x hx
    have hsingle : number x ^ 2 ≤ (l.map fun x => number x ^ 2).sum :=
      List.single_le_sum (List.forall_mem_map.mpr fun y _ => sq_nonneg (number y)) _
        (List.mem_map_of_mem hx)
    refine abs_le_of_sq_le_sq ?_ (by norm_num)
    linarith
  · intro hlength hsmall
    have hsum : (l.map fun x => number x ^ 2).sum ≤ 9 * (1 / 16) := by
      have hentry : ∀ y ∈ l.map fun x => number x ^ 2, y ≤ 1 / 16 := by
        refine List.forall_mem_map.mpr fun x hx => ?_
        have habs := hsmall x hx
        norm_num at habs
        nlinarith [abs_nonneg (number x), sq_abs (number x)]
      have hcount := List.sum_le_card_nsmul _ _ hentry
      rw [List.length_map, hlength, nsmul_eq_mul] at hcount
      exact_mod_cast hcount
    linarith

/-- The entries of a solution are a singular vector. -/
theorem exists_vector_of_solution? [Spectral Float] {tolerance : Float} {rows : List (List Float)}
    (h : solution? tolerance rows = some G) : G.entries ∈ (Spectral.spectrum rows).vectors := by
  unfold solution? at h
  simp only at h
  split at h
  · rename_i first eighth kernel _ _ hkernel
    split_ifs at h
    have hentries : G.entries = kernel := by
      unfold Matrix3.ofEntries? at h
      split at h
      · cases h
        rfl
      · cases h
    exact hentries ▸ List.mem_of_getElem? hkernel
  · cases h

/-- A candidate from moderate data that is finite can be brought to its canonical scale. -/
theorem scalable_candidate [Spectral Float] [Spectral.Accurate] {tolerance : Float}
    {B : Matrix3 Float} (hdata : ∀ c ∈ data, c.Moderate) (h : candidate? tolerance data = some B)
    (hfinite : B.isFinite = true) : B.Scalable := by
  obtain ⟨S, D, G, hsolves, rfl⟩ := candidate?_eq_some_iff.mp h
  have hne : data ≠ [] := List.ne_nil_of_length_pos (Nat.lt_of_lt_of_le (by decide) hsolves.enough)
  obtain ⟨s, p, hs, rfl⟩ := Normalization.exists_moderate
    (List.forall_mem_map.mpr fun c hc => (hdata c hc).source)
    (by simpa [Correspondence.sources] using hne) hsolves.source
  obtain ⟨t, q, ht, rfl⟩ := Normalization.exists_moderate
    (List.forall_mem_map.mpr fun c hc => (hdata c hc).destination)
    (by simpa [Correspondence.destinations] using hne) hsolves.destination
  have hinverse := Normalization.denormalizing_inverse ht
  have hsolution := (Matrix3.isFinite_factors (Matrix3.isFinite_factors hfinite).1).2
  obtain ⟨hunit, hlarge⟩ := unit_bounds (Spectral.Accurate.vector_length _ _
    (exists_vector_of_solution? hsolves.solution) (Matrix3.isFinite_iff.mp hsolution))
  refine Matrix3.scalable_of_within (Normalization.within_denormalized hinverse ht.between hs
    fun x hx => ⟨Matrix3.isFinite_iff.mp hsolution x hx, hunit x hx⟩) ?_
  by_contra! hsmall
  have hzero := Normalization.small_of_denormalized hinverse ht.between hs fun x hx =>
    ⟨Matrix3.isFinite_iff.mp hfinite x hx, hsmall x hx⟩
  exact hlarge rfl fun x hx => (hzero x hx).lt

/-- The solution for a list of correspondences can be brought to its canonical scale in doubles, if
it counts as non-singular: the sum of the squares of its entries is neither rounded to zero nor
beyond all doubles. -/
def InRange [Spectral Float] (data : List (Correspondence Float)) : Prop :=
  ∀ B, candidate? rankTolerance data = some B →
    B.isNonSingular Matrix3.rankTolerance = true → B.Scalable

/-- What is found for moderate data has a norm that can be divided by. -/
theorem inRange_of_moderate [Spectral Float] [Spectral.Accurate]
    (hdata : ∀ c ∈ data, c.Moderate) : InRange data := fun _ hB hregular =>
  scalable_candidate hdata hB (Matrix3.isFinite_of_isNonSingular hregular)

/-- An estimate is finite and not singular exactly if its data are in range. -/
theorem estimate?_iff_inRange [Spectral Float] [Spectral.Accurate]
    (h : estimate? rankTolerance data = some A) :
    A.isFinite = true ∧ A.numbers.det ≠ 0 ↔ InRange data := by
  rw [estimate?_eq, estimateWithin?_eq_some_iff] at h
  obtain ⟨B, hB, hregular, rfl⟩ := h
  rw [Matrix3.canonicalScale_iff hregular]
  refine ⟨fun hscalable C hC _ => ?_, fun hrange => hrange B hB hregular⟩
  rw [hB] at hC
  exact Option.some.inj hC ▸ hscalable

end Linear

section Corners

/-- The corners of a square in doubles, each of them matched with itself. -/
def corners : List (Correspondence Float) :=
  [⟨⟨1, 1⟩, ⟨1, 1⟩⟩, ⟨⟨-1, 1⟩, ⟨-1, 1⟩⟩, ⟨⟨-1, -1⟩, ⟨-1, -1⟩⟩, ⟨⟨1, -1⟩, ⟨1, -1⟩⟩]

/-- The corners of a square are moderate. -/
theorem moderate_corners : ∀ c ∈ corners, c.Moderate := by
  have hle : ∀ c ∈ corners, (|number c.source.x| ≤ 2 ^ 200 ∧ |number c.source.y| ≤ 2 ^ 200) ∧
      |number c.destination.x| ≤ 2 ^ 200 ∧ |number c.destination.y| ≤ 2 ^ 200 := by decide +kernel
  intro c hc
  obtain ⟨⟨hx, hy⟩, hu, hv⟩ := hle c hc
  exact ⟨⟨fun _ => hx, fun _ => hy⟩, fun _ => hu, fun _ => hv⟩

/-- The multiple of the identity that has norm one, up to rounding. -/
def Matrix3.unitOne : Matrix3 Float :=
  ⟨0.5773502691896258, 0, 0, 0, 0.5773502691896258, 0, 0, 0, 0.5773502691896258⟩

/-- The decomposition of the system of the corners. -/
def cornersSpectrum : Spectrum Float where
  values := [3.4641016151377544, 3.23606797749979, 3.23606797749979, 2, 2, 2, 1.2360679774997898,
    1.2360679774997898]
  vectors :=
    [[0.40824829046386296, 0, 0, 0, 0.40824829046386296, 0, 0, 0, -0.8164965809277259],
      [0, 0, 0.5257311121191336, 0, 0, 0, -0.8506508083520399, 0, 0],
      [0, 0, 0, 0, 0, 0.5257311121191336, 0, -0.8506508083520399, 0],
      [0, 1, 0, 0, 0, 0, 0, 0, 0],
      [0, 0, 0, 1, 0, 0, 0, 0, 0],
      [0.7071067811865475, 0, 0, 0, -0.7071067811865475, 0, 0, 0, 0],
      [0, 0, 0.8506508083520399, 0, 0, 0, 0.5257311121191336, 0, 0],
      [0, 0, 0, 0, 0, 0.8506508083520399, 0, 0.5257311121191336, 0],
      Matrix3.unitOne.entries]

/-- The decomposition of the multiple of the identity. -/
def unitOneSpectrum : Spectrum Float where
  values := [0.5773502691896258, 0.5773502691896258, 0.5773502691896258]
  vectors := [[1, 0, 0], [0, 1, 0], [0, 0, 1]]

/-- The decompositions that an estimation from the corners asks for. -/
@[reducible] def Spectral.ofCorners : Spectral Float where
  spectrum rows :=
    if rows = Linear.system Matrix3.one Matrix3.one corners then cornersSpectrum
    else if rows = Matrix3.unitOne.rows then unitOneSpectrum
    else ⟨[], []⟩

/-- The multiple of the identity is estimated from the corners. -/
theorem Linear.estimate?_corners :
    letI := Spectral.ofCorners
    estimate? rankTolerance corners = some Matrix3.unitOne := by
  decide +kernel

/-- A matrix is given by its rows. -/
theorem Matrix3.rows_injective {α : Type} : Function.Injective (rows (α := α)) := by
  intro A B h
  cases A
  cases B
  simpa [rows, and_assoc] using h

/-- All singular values of the multiple of the identity are the same. -/
theorem Decomposition.values_unitOne (d : Decomposition Matrix3.unitOne.numbers.toMatrix)
    (i : Fin 3) : d.values i = ((number 0.5773502691896258 : ℚ) : ℝ) := by
  have hnonneg : 0 ≤ number 0.5773502691896258 := by decide +kernel
  refine Matrix3.values_eq_of_act d (Rat.cast_nonneg.mpr hnonneg) (fun g => ?_) i
  simp only [Matrix3.unitOne, Matrix3.numbers, Matrix3.map, Matrix3.act, Homogeneous.squaredLength,
    number_zero, Rat.cast_zero, zero_mul, add_zero, zero_add]
  ring

/-- The decompositions for the corners are accurate. -/
theorem Spectral.ofCorners_accurate :
    letI := Spectral.ofCorners
    Spectral.Accurate := by
  let spectral : Spectral Float := Spectral.ofCorners
  constructor
  · intro rows v hv _
    have hlength : ∀ v ∈ cornersSpectrum.vectors ++ unitOneSpectrum.vectors,
        |(v.map fun x => number x ^ 2).sum - 1| ≤ 2 ^ (-20 : ℤ) := by decide +kernel
    simp only [Spectral.spectrum] at hv
    split_ifs at hv
    · exact hlength v (List.mem_append_left _ hv)
    · exact hlength v (List.mem_append_right _ hv)
    · cases hv
  · intro A first second last _ _ hvalues
    simp only [Spectral.spectrum] at hvalues
    split_ifs at hvalues with hsystem hrows
    · cases hvalues
    · obtain rfl := Matrix3.rows_injective hrows
      cases hvalues
      refine ⟨by decide +kernel, fun d => ?_⟩
      have hnear : ∀ i, |((number 0.5773502691896258 : ℚ) : ℝ) - d.values i| ≤
          2 ^ (-45 : ℤ) * d.values 0 := fun i => by
        rw [d.values_unitOne i, sub_self, abs_zero]
        exact mul_nonneg (zpow_nonneg zero_le_two _) (d.nonneg 0)
      exact ⟨hnear 0, hnear 2⟩

end Corners

end Projectivity
