import Projectivity.Proofs.Homography.Range

/-!
# The canonical scale in doubles

A matrix can be divided by its norm if the norm is a positive double.  It has an entry
then which can be squared, none which is too large for that, and the division is exact
up to the last place.  Where the squares of the entries are all lost, or exceed the
doubles, the result is not finite or is zero.
-/

set_option autoImplicit false

namespace Projectivity

open Double

namespace Double

variable {x : Float} {l : List Float} {j : ℕ}

/-- A sum of zeros is a zero. -/
theorem isZero_sum (h : ∀ x ∈ l, IsZero x) : IsZero l.sum := by
  induction l with
  | nil => exact isZero_zero
  | cons y rest ih =>
    rw [List.forall_mem_cons] at h
    rw [List.sum_cons]
    exact h.1.add (ih h.2)

/-- A finite sum of doubles that are not negative is at least as large as each of them. -/
theorem number_le_number_sum (hsum : l.sum.isFinite = true) (h : ∀ x ∈ l, 0 ≤ number x) :
    0 ≤ number l.sum ∧ ∀ x ∈ l, number x ≤ number l.sum := by
  induction l with
  | nil => exact ⟨le_rfl, fun x hx => absurd hx List.not_mem_nil⟩
  | cons y rest ih =>
    rw [List.sum_cons] at hsum ⊢
    rw [List.forall_mem_cons] at h
    obtain ⟨hy, hrest⟩ := isFinite_of_add hsum
    obtain ⟨hnonneg, hterms⟩ := ih hrest h.2
    have hresult := isNearestTo_add hy hrest
    have hpos := hresult.nonneg (add_nonneg h.1 hnonneg)
    have hlarger : ∀ {z : Float}, z.isFinite = true → 0 ≤ number z →
        number z ≤ number y + number rest.sum → number z ≤ number (y + rest.sum) := by
      intro z hz hsign hle
      have habs := hresult.le_abs_number_of_le hz (abs_le_abs_of_nonneg hsign hle)
      rwa [abs_of_nonneg hsign, abs_of_nonneg hpos] at habs
    refine ⟨hpos, List.forall_mem_cons.mpr ⟨?_, fun x hx => (hterms x hx).trans ?_⟩⟩
    · exact hlarger hy h.1 (le_add_of_nonneg_right hnonneg)
    · exact hlarger hrest hnonneg (le_add_of_nonneg_left h.1)

/-- The norm of a short list of bounded doubles is bounded. -/
theorem within_norm (h : ∀ x ∈ l, Within j x) (hlength : l.length ≤ 16) (hj : j + j + 53 ≤ 1023) :
    Within (j + 2) (Scalar.norm l) := by
  have hsquares : ∀ y ∈ l.map Scalar.square, Within (j + j) y :=
    List.forall_mem_map.mpr fun x hx => (h x hx).square (by omega)
  obtain ⟨hfinite, hle⟩ := abs_number_sum_le hsquares hj
  have hwithin : Within (2 * (j + 2)) (l.map Scalar.square).sum := by
    refine ⟨hfinite, hle.trans ?_⟩
    have hcount : ((min (l.map Scalar.square).length (2 ^ 53) : ℕ) : ℚ) ≤ 2 ^ 4 := by
      rw [List.length_map]
      exact_mod_cast (min_le_left _ _).trans hlength
    calc _ ≤ (2 : ℚ) ^ 4 * 2 ^ (j + j) := mul_le_mul_of_nonneg_right hcount (by positivity)
      _ = 2 ^ (2 * (j + 2)) := by rw [← pow_add]; congr 1; omega
  exact hwithin.sqrt (sum_nonneg (List.forall_mem_map.mpr fun x hx =>
    square_nonneg (isNaN_of_isFinite (h x hx).finite))) (by omega)

section FiniteNorm

variable (h : (Scalar.norm l).isFinite = true)
include h

/-- The squares of a list with a finite norm have a finite sum. -/
theorem isFinite_sum_squares : (l.map Scalar.square).sum.isFinite = true := isFinite_of_sqrt h

/-- The squares of a list with a finite norm are finite, and so are its doubles. -/
theorem isFinite_of_norm (hx : x ∈ l) : x.isFinite = true ∧ (Scalar.square x).isFinite = true := by
  have hsquare := isFinite_of_sum (isFinite_sum_squares h) _ (List.mem_map_of_mem hx)
  exact ⟨(isFinite_of_mul hsquare).1, hsquare⟩

/-- The sum of the squares of a list with a finite norm is at least as large as each square. -/
theorem number_square_le : 0 ≤ number (l.map Scalar.square).sum ∧
    ∀ x ∈ l, number (Scalar.square x) ≤ number (l.map Scalar.square).sum := by
  obtain ⟨hnonneg, hterms⟩ := number_le_number_sum (isFinite_sum_squares h)
    (List.forall_mem_map.mpr fun x hx =>
      (isNearestTo_mul (isFinite_of_norm h hx).1 (isFinite_of_norm h hx).1).nonneg
        (mul_self_nonneg _))
  exact ⟨hnonneg, List.forall_mem_map.mp hterms⟩

/-- The doubles of a list with a finite norm are below the root of the largest double. -/
theorem within_of_norm (hx : x ∈ l) : Within 512 x := by
  obtain ⟨hfinite, hsquare⟩ := isFinite_of_norm h hx
  refine ⟨hfinite, ?_⟩
  by_contra! hlarge
  have hexact : 2 ^ (1024 : ℤ) ≤ |number x * number x| := by
    rw [abs_mul, show (1024 : ℤ) = (512 : ℕ) + (512 : ℕ) by norm_num, two_zpow_add, zpow_natCast]
    exact mul_le_mul hlarge.le hlarge.le (by positivity) (abs_nonneg _)
  have hsize := (isNearestTo_mul hfinite hfinite).le_abs_number (by norm_num) le_rfl hexact
  exact absurd ((isFinite_iff_number (isNaN_of_isFinite hsquare)).mp hsquare) (not_lt.mpr hsize)

/-- A norm that is finite is at most the root of the largest double. -/
theorem within_finite_norm : Within 512 (Scalar.norm l) := by
  have hsum := isFinite_sum_squares h
  have hlt := (isFinite_iff_number (isNaN_of_isFinite hsum)).mp hsum
  have hwithin : Within (2 * 512) (l.map Scalar.square).sum := by
    refine ⟨hsum, hlt.le.trans_eq ?_⟩
    rw [overflow, ← zpow_natCast]
    norm_num
  exact hwithin.sqrt (sum_nonneg (List.forall_mem_map.mpr fun x hx =>
    square_nonneg (isNaN_of_isFinite (isFinite_of_norm h hx).1))) (by norm_num)

/-- A norm is at least as large as a power of two if one of the doubles is, and if its square does
not get lost. -/
theorem le_number_norm {n : ℤ} (hn : -537 ≤ n) (hx : x ∈ l) (hge : 2 ^ n ≤ |number x|) :
    2 ^ n ≤ number (Scalar.norm l) := by
  obtain ⟨hfinite, -⟩ := isFinite_of_norm h hx
  have hn' : n ≤ (512 : ℕ) := by
    rw [← zpow_le_zpow_iff_right₀ (one_lt_two (α := ℚ)), zpow_natCast]
    exact hge.trans (within_of_norm h hx).le
  have hsquare : 2 ^ (2 * n) ≤ number (Scalar.square x) := by
    have hproduct := isNearestTo_mul hfinite hfinite
    have hsize := hproduct.le_abs_number (k := 2 * n) (by omega) (by omega) ?_
    · exact hsize.trans_eq (abs_of_nonneg (hproduct.nonneg (mul_self_nonneg _)))
    · rw [abs_mul, two_mul, two_zpow_add]
      exact mul_le_mul hge hge (two_zpow_pos n).le (abs_nonneg _)
  exact le_number_sqrt (isFinite_sum_squares h) (by omega) (by omega)
    (hsquare.trans ((number_square_le h).2 x hx))

section Positive

variable (hpos : 0 < number (Scalar.norm l))
include hpos

/-- A positive norm is the root of at least the smallest double. -/
theorem two_zpow_le_norm : 2 ^ (-537 : ℤ) ≤ number (Scalar.norm l) := by
  have hsum := isFinite_sum_squares h
  have hne : number (l.map Scalar.square).sum ≠ 0 := fun hzero =>
    hpos.ne' (IsZero.sqrt ⟨hsum, hzero⟩).number_eq
  have hlow := two_zpow_le_abs_number hsum hne
  rw [abs_of_nonneg (number_square_le h).1] at hlow
  exact le_number_sqrt hsum (by norm_num) (by norm_num) hlow

/-- No double is larger than twice the norm. -/
theorem abs_number_le_norm (hx : x ∈ l) : |number x| ≤ 2 * number (Scalar.norm l) := by
  rcases (abs_nonneg (number x)).eq_or_lt with hzero | hnonzero
  · rw [← hzero]
    exact mul_nonneg zero_le_two hpos.le
  obtain ⟨n, hge, hlt⟩ := exists_mem_Ico_zpow hnonzero (one_lt_two (α := ℚ))
  have hnorm : 2 ^ n ≤ number (Scalar.norm l) := by
    rcases le_or_gt (-537) n with hn | hn
    · exact le_number_norm h hn hx hge
    · exact (zpow_le_zpow_right₀ one_le_two hn.le).trans (two_zpow_le_norm h hpos)
  rw [zpow_add_one₀ two_ne_zero] at hlt
  linarith only [hlt, hnorm]

/-- A positive norm has a double whose square does not get lost. -/
theorem exists_large_of_norm : ∃ x ∈ l, 2 ^ (-538 : ℤ) ≤ |number x| := by
  by_contra! hsmall
  have hlost : ∀ y ∈ l.map Scalar.square, IsZero y := List.forall_mem_map.mpr fun x hx => by
    obtain ⟨hfinite, hsquare⟩ := isFinite_of_norm h hx
    refine ⟨hsquare, ?_⟩
    by_contra hne
    have hge := (isNearestTo_mul hfinite hfinite).two_zpow_le hne
    have hlt : |number x * number x| < 2 ^ (-538 : ℤ) * 2 ^ (-538 : ℤ) := by
      rw [abs_mul]
      exact mul_lt_mul'' (hsmall x hx) (hsmall x hx) (abs_nonneg _) (abs_nonneg _)
    rw [← two_zpow_add] at hlt
    exact absurd ((zpow_lt_zpow_iff_right₀ one_lt_two).mp (hge.trans_lt hlt)) (by norm_num)
  exact hpos.ne' (isZero_sum hlost).sqrt.number_eq

/-- The last place of the norm is a small part of one of the doubles, also where the norm has lost
most of its digits. -/
theorem exists_norm_mul_le (hlength : l.length ≤ 16) :
    ∃ x ∈ l, number (Scalar.norm l) * 2 ^ (-1075 : ℤ) ≤ 2 ^ (-53 : ℤ) * |number x| := by
  by_cases hall : ∀ x ∈ l, |number x| ≤ 2 ^ 0
  · obtain ⟨x, hx, hge⟩ := exists_large_of_norm h hpos
    have hnorm := within_norm (fun x hx => ⟨(isFinite_of_norm h hx).1, hall x hx⟩) hlength
      (by norm_num)
    refine ⟨x, hx, ?_⟩
    calc number (Scalar.norm l) * 2 ^ (-1075 : ℤ) ≤ 2 ^ (0 + 2) * 2 ^ (-1075 : ℤ) :=
          mul_le_mul_of_nonneg_right (le_of_abs_le hnorm.le) (two_zpow_pos _).le
      _ = 2 ^ (-1073 : ℤ) := by rw [← zpow_natCast, ← two_zpow_add]; norm_num
      _ ≤ 2 ^ (-53 + -538 : ℤ) := zpow_le_zpow_right₀ one_le_two (by norm_num)
      _ = 2 ^ (-53 : ℤ) * 2 ^ (-538 : ℤ) := two_zpow_add _ _
      _ ≤ 2 ^ (-53 : ℤ) * |number x| := mul_le_mul_of_nonneg_left hge (two_zpow_pos _).le
  · push Not at hall
    obtain ⟨x, hx, hlarge⟩ := hall
    refine ⟨x, hx, ?_⟩
    calc number (Scalar.norm l) * 2 ^ (-1075 : ℤ) ≤ 2 ^ 512 * 2 ^ (-1075 : ℤ) :=
          mul_le_mul_of_nonneg_right (le_of_abs_le (within_finite_norm h).le) (two_zpow_pos _).le
      _ = 2 ^ (-563 : ℤ) := by rw [← zpow_natCast, ← two_zpow_add]; norm_num
      _ ≤ 2 ^ (-53 : ℤ) * 2 ^ 0 := by
          rw [pow_zero, mul_one]
          exact zpow_le_zpow_right₀ one_le_two (by norm_num)
      _ ≤ 2 ^ (-53 : ℤ) * |number x| := mul_le_mul_of_nonneg_left hlarge.le (two_zpow_pos _).le

end Positive

end FiniteNorm

end Double

namespace Matrix3

variable {B : Matrix3 Float}

/-- A matrix that can be brought to its canonical scale, since its norm is a positive double. -/
structure Scalable (B : Matrix3 Float) : Prop where
  finite : B.norm.isFinite = true
  pos : 0 < number B.norm

/-- A matrix with bounded entries can be scaled if one of them is not too small to be squared. -/
theorem scalable_of_within (hwithin : ∀ x ∈ B.entries, Within 458 x)
    (hlarge : ∃ x ∈ B.entries, 2 ^ (-537 : ℤ) ≤ |number x|) : B.Scalable := by
  obtain ⟨x, hx, hge⟩ := hlarge
  have hnorm := within_norm hwithin (by simp [entries]) (by norm_num)
  exact ⟨hnorm.finite, (two_zpow_pos _).trans_le (le_number_norm hnorm.finite le_rfl hx hge)⟩

/-- Divided by its norm, a matrix stays finite. -/
theorem Scalable.isFinite_scaleDown (h : B.Scalable) : (B.scaleDown B.norm).isFinite = true := by
  rw [isFinite_iff]
  rintro x hx
  rw [scaleDown, entries_map, List.mem_map] at hx
  obtain ⟨y, hy, rfl⟩ := hx
  have hquotient := isNearestTo_div (within_of_norm h.finite hy).finite h.finite h.pos.ne'
  refine (hquotient.within (k := 1) (by norm_num) ?_).finite
  rw [abs_div, abs_of_pos h.pos, div_le_iff₀ h.pos, pow_one]
  exact abs_number_le_norm h.finite h.pos hy

/-- The signs of the canonical scale do not matter for whether it is finite. -/
theorem isFinite_canonicalScale_iff (B : Matrix3 Float) :
    B.canonicalScale.isFinite = true ↔ (B.scaleDown B.norm).isFinite = true := by
  unfold canonicalScale
  simp only
  split_ifs
  · rw [isFinite_iff, isFinite_iff, entries_map, List.forall_mem_map]
    exact forall₂_congr fun x _ => by rw [isFinite_neg]
  · exact Iff.rfl

/-- The canonical scale of a matrix is finite. -/
theorem Scalable.isFinite_canonicalScale (h : B.Scalable) : B.canonicalScale.isFinite = true :=
  B.isFinite_canonicalScale_iff.mpr h.isFinite_scaleDown

/-- A matrix that cannot be scaled has a canonical scale that is not finite, or is zero. -/
theorem isZero_canonicalScale (hB : B.isFinite = true) (h : ¬ B.Scalable)
    (hfinite : B.canonicalScale.isFinite = true) : ∀ x ∈ B.canonicalScale.entries, IsZero x := by
  have hentries := isFinite_iff.mp hB
  have hnorm : 0 ≤ B.norm :=
    Double.norm_nonneg fun x hx => isNaN_of_isFinite (hentries x hx)
  have hnan := (le_refl_iff _).mp (Scalar.Ordered.le_refl_right hnorm)
  rw [le_iff_number rfl hnan, number_zero] at hnorm
  by_cases hsize : B.norm.isFinite = true
  · -- The norm is zero, and a quotient by it is not finite.
    have hzero : IsZero B.norm := ⟨hsize, hnorm.antisymm' (not_lt.mp fun hpos => h ⟨hsize, hpos⟩)⟩
    have hscaled := isFinite_iff.mp (B.isFinite_canonicalScale_iff.mp hfinite)
    have hmem : B.m11 / B.norm ∈ (B.scaleDown B.norm).entries := List.mem_cons_self
    exact absurd (hscaled _ hmem) hzero.not_isFinite_div
  · have hscaled : ∀ x ∈ (B.scaleDown B.norm).entries, IsZero x := by
      rw [scaleDown, entries_map, List.forall_mem_map]
      exact fun x hx => isZero_div_infinite (hentries x hx) hnan hsize
    unfold canonicalScale
    simp only
    split_ifs
    · rw [entries_map, List.forall_mem_map]
      intro x hx
      have hx := hscaled x hx
      exact ⟨(isFinite_neg x).trans hx.finite, by rw [number_neg, hx.number_eq, neg_zero]⟩
    · exact hscaled

end Matrix3

end Projectivity
