import Projectivity.Proofs.Exact.Confidence

/-!
# Numbers of samples in exact arithmetic

The iterations that a confidence requires are the least number of samples, from one on,
of which all hold an outlier with a probability of at most one minus the confidence, as
long as that number is below the cap.  The more samples are enough, the fewer are
required, which makes the number monotone in all of its arguments.  The number of samples
for an expected part of outliers is the same one, brought between its bounds.
-/

set_option autoImplicit false

namespace Projectivity.Fitting

/-- The numbers of samples of which all hold an outlier with a probability of at most one minus the
confidence, where a sample of inliers has a given probability. -/
def Enough (confidence good : ℝ) : Set ℕ := {k | 1 ≤ k ∧ (1 - good) ^ k ≤ 1 - confidence}

section Least

variable {p p' good good' : ℝ}

/-- A number of iterations that is enough is so for less confidence and more good samples. -/
theorem Enough.mono (hp : p' ≤ p) (hgood : good ≤ good') (hone : good' ≤ 1) :
    Enough p good ⊆ Enough p' good' := by
  rintro k ⟨hk, henough⟩
  refine ⟨hk, ?_⟩
  calc (1 - good') ^ k ≤ (1 - good) ^ k :=
        pow_le_pow_left₀ (sub_nonneg.mpr hone) (sub_le_sub_left hgood 1) k
    _ ≤ 1 - p := henough
    _ ≤ 1 - p' := sub_le_sub_left hp 1

/-- The least number of samples that is enough is the quotient of the logarithms rounded up. -/
theorem exists_isLeast_enough (hp : p < 1) (hpos : 0 < good) (hlt : good < 1) :
    ∃ least : ℕ, IsLeast (Enough p good) least ∧
      (least : ℤ) = max 1 ⌈Real.log (1 - p) / Real.log (1 - good)⌉ := by
  have hiff := pow_le_iff_quotient_le hp hpos hlt
  generalize Real.log (1 - p) / Real.log (1 - good) = quotient at hiff ⊢
  refine ⟨(max 1 ⌈quotient⌉).toNat, ⟨⟨by omega, ?_⟩, ?_⟩, by omega⟩
  · have hceil : ⌈quotient⌉ ≤ ((max 1 ⌈quotient⌉).toNat : ℤ) := by omega
    exact (hiff _).mpr (by exact_mod_cast Int.ceil_le.mp hceil)
  · rintro k ⟨hk, henough⟩
    have hceil : ⌈quotient⌉ ≤ (k : ℤ) :=
      Int.ceil_le.mpr (by exact_mod_cast (hiff k).mp henough)
    omega

end Least

section Required

variable {p p' w w' : ℝ} {size size' : ℕ}

/-- The required iterations do not change when a ratio is brought between zero and one. -/
theorem requiredIterations_clamp (p w : ℝ) (size : ℤ) :
    requiredIterations p (min (max w 0) 1) size = requiredIterations p w size := by
  have hnonneg : max (min (max w 0) 1) 0 = min (max w 0) 1 :=
    max_eq_left (le_min (le_max_right w 0) zero_le_one)
  unfold requiredIterations
  simp only [Exact.larger_eq, Exact.smaller_eq, hnonneg, min_assoc, min_self]

/-- One iteration is required without outliers, the cap where a sample of inliers is not reckoned
with, and in between the least number that is enough. -/
theorem requiredIterations_cases (hp : p < 1) (hsize : 0 < size) (w : ℝ) :
    ∃ k, requiredIterations p w size = .ok k ∧
      (1 ≤ w ∧ k = 1 ∨
        w < 1 ∧ (w ≤ 0 ∨ w ^ size ≤ 1 / 10 ^ 300) ∧ k = 10 ^ 9 ∨
        0 < w ∧ w < 1 ∧ 1 / 10 ^ 300 < w ^ size ∧
          ∃ least : ℕ, IsLeast (Enough p (w ^ size)) least ∧ k = min (10 ^ 9) least) := by
  have hfloor : (probabilityFloor : ℝ) = 1 / 10 ^ 300 := by
    rw [probabilityFloor, Exact.decimal_eq, Nat.cast_one]
  have hcap : iterationCap = 10 ^ 9 := by norm_num [iterationCap]
  have heq : requiredIterations p (min (max w 0) 1) size = _ :=
    requiredIterations_eq hsize (le_min (le_max_right w 0) zero_le_one) (min_le_right _ _)
  rw [requiredIterations_clamp, hfloor, hcap] at heq
  rw [heq]
  rcases le_or_gt 1 w with hone | hlt
  · rw [if_pos (min_eq_right (hone.trans (le_max_left w 0)))]
    exact ⟨1, rfl, Or.inl ⟨hone, rfl⟩⟩
  rcases le_or_gt w 0 with hnull | hpos
  · have hclamp : min (max w 0) 1 = 0 := by rw [max_eq_right hnull, min_eq_left zero_le_one]
    rw [hclamp, if_neg zero_ne_one, zero_pow hsize.ne', if_pos (by positivity)]
    exact ⟨_, rfl, Or.inr (Or.inl ⟨hlt, Or.inl hnull, rfl⟩)⟩
  have hclamp : min (max w 0) 1 = w := by rw [max_eq_left hpos.le, min_eq_left hlt.le]
  rw [hclamp, if_neg hlt.ne]
  by_cases hsmall : w ^ size ≤ 1 / 10 ^ 300
  · rw [if_pos hsmall]
    exact ⟨_, rfl, Or.inr (Or.inl ⟨hlt, Or.inr hsmall, rfl⟩)⟩
  · rw [if_neg hsmall]
    obtain ⟨least, hleast, hquotient⟩ :=
      exists_isLeast_enough hp (pow_pos hpos size) (pow_lt_one₀ hpos.le hlt hsize.ne')
    refine ⟨_, rfl, Or.inr (Or.inr ⟨hpos, hlt, not_le.mp hsmall, least, hleast, ?_⟩)⟩
    rw [← hquotient, min_comm]
    push_cast
    rfl

/-- A sample of inliers is not less probable with a larger part of inliers or a smaller sample. -/
theorem ratio_pow_le (hpos : 0 < w) (hlt : w < 1) (hw : w ≤ w') (hsize : size' ≤ size) :
    w ^ size ≤ w' ^ size' :=
  (pow_le_pow_of_le_one hpos.le hlt.le hsize).trans (pow_le_pow_left₀ hpos.le hw size')

/-- The required iterations do not become more with a smaller confidence, a larger ratio or a
smaller sample. -/
theorem requiredIterations_le {k k' : ℤ} (hp : p < 1) (hp' : p' ≤ p) (hw : w ≤ w')
    (hpos : 0 < size') (hsize : size' ≤ size) (h : requiredIterations p w size = .ok k)
    (h' : requiredIterations p' w' size' = .ok k') : k' ≤ k := by
  obtain ⟨_, heq, hcases⟩ := requiredIterations_cases hp (hpos.trans_le hsize) w
  obtain rfl := Except.ok.inj (h.symm.trans heq)
  obtain ⟨_, heq', hcases'⟩ := requiredIterations_cases (hp'.trans_lt hp) hpos w'
  obtain rfl := Except.ok.inj (h'.symm.trans heq')
  rcases hcases with ⟨hone, rfl⟩ | ⟨-, -, rfl⟩ | ⟨hwpos, hlt, hlarge, least, hleast, rfl⟩
  · -- If the smaller ratio is one, the larger one is as well.
    rcases hcases' with ⟨-, rfl⟩ | ⟨hlt', -, rfl⟩ | ⟨-, hlt', -⟩
    · exact le_rfl
    · exact absurd hlt' (not_lt.mpr (hone.trans hw))
    · exact absurd hlt' (not_lt.mpr (hone.trans hw))
  · -- Nothing is above the cap.
    rcases hcases' with ⟨-, rfl⟩ | ⟨-, -, rfl⟩ | ⟨-, -, -, least', -, rfl⟩ <;> omega
  · have hgood := ratio_pow_le hwpos hlt hw hsize
    have hmin : 1 ≤ least := hleast.1.1
    rcases hcases' with
      ⟨-, rfl⟩ | ⟨-, hsmall' | hsmall', rfl⟩ | ⟨hwpos', hlt', -, least', hleast', rfl⟩
    · omega
    · exact absurd (hwpos.trans_le hw) (not_lt.mpr hsmall')
    · exact absurd (hgood.trans hsmall') (not_le.mpr hlarge)
    · have hle : least' ≤ least := hleast'.2
        (Enough.mono hp' hgood (pow_le_one₀ hwpos'.le hlt'.le) hleast.1)
      omega

/-- For a confidence between zero and one nothing is checked beforehand. -/
theorem checkedIterations_eq {α : Type} [Scalar α] {report : α → Float} {confidence ratio : α}
    {size : ℤ} (hpos : 0 < confidence) (hlt : confidence < 1) :
    checkedIterations report confidence ratio size = requiredIterations confidence ratio size := by
  unfold checkedIterations
  split
  · rename_i hsize
    rw [requiredIterations, if_pos hsize]
  · rw [if_pos ⟨hpos, hlt⟩]

variable (report : ℝ → Float)

/-- For every confidence between zero and one and every sample that holds an item, the required
iterations are between one and `10 ^ 9`.  For a ratio between zero and one they are the least number
of samples that is enough, or the cap.  They do not become more if the confidence or the sample
becomes smaller or the ratio larger. -/
theorem checkedIterations_exact (hp : 0 < p) (hp1 : p < 1) (hsize : 1 ≤ size) (w : ℝ) :
    ∃ k, checkedIterations report p w size = .ok k ∧ 1 ≤ k ∧ k ≤ 10 ^ 9 ∧
      (0 < w → w < 1 → 1 / 10 ^ 300 < w ^ size →
        ∃ least : ℕ, IsLeast {n | 1 ≤ n ∧ (1 - w ^ size) ^ n ≤ 1 - p} least ∧
          k = min (10 ^ 9) least) ∧
      ∀ (p' w' : ℝ) (size' : ℕ), 0 < p' → p' ≤ p → w ≤ w' → 1 ≤ size' → size' ≤ size →
        ∃ k', checkedIterations report p' w' size' = .ok k' ∧ k' ≤ k := by
  obtain ⟨k, hk, hcases⟩ := requiredIterations_cases hp1 hsize w
  refine ⟨k, (checkedIterations_eq hp hp1).trans hk, ?_, ?_, ?_, ?_⟩
  · rcases hcases with ⟨-, rfl⟩ | ⟨-, -, rfl⟩ | ⟨-, -, -, least, hleast, rfl⟩
    · omega
    · omega
    · have hmin : 1 ≤ least := hleast.1.1
      omega
  · rcases hcases with ⟨-, rfl⟩ | ⟨-, -, rfl⟩ | ⟨-, -, -, least, -, rfl⟩ <;> omega
  · intro hpos hlt hlarge
    rcases hcases with ⟨hone, -⟩ | ⟨-, hsmall | hsmall, -⟩ | ⟨-, -, -, hleast⟩
    · exact absurd hlt (not_lt.mpr hone)
    · exact absurd hpos (not_lt.mpr hsmall)
    · exact absurd hlarge (not_lt.mpr hsmall)
    · exact hleast
  · intro p' w' size' hpos' hp' hw hsize' hle
    have hlt' : p' < 1 := hp'.trans_lt hp1
    obtain ⟨k', hk', -⟩ := requiredIterations_cases hlt' hsize' w'
    exact ⟨k', (checkedIterations_eq hpos' hlt').trans hk',
      requiredIterations_le hp1 hp' hw hsize' hle hk hk'⟩

/-- The floor of probabilities is below one half. -/
theorem floor_lt_half : (1 / 10 ^ 300 : ℝ) < (1 / 2) ^ 1 := by
  rw [pow_one]
  have hlarge : (10 : ℝ) ^ 1 ≤ 10 ^ 300 := pow_le_pow_right₀ (by norm_num) (by norm_num)
  exact one_div_lt_one_div_of_lt two_pos (lt_of_lt_of_le (by norm_num) hlarge)

/-- Two iterations are enough for three quarters with every second sample good. -/
theorem checkedIterations_half : checkedIterations report (3 / 4) (1 / 2) (1 : ℕ) = .ok 2 :=
  (checkedIterations_eq (by norm_num) (by norm_num)).trans Ransac.requiredIterations_half

/-- Two iterations for a confidence of three quarters if half of the items are inliers and a sample
holds one of them, and not more if all items are inliers. -/
theorem checkedIterations_exact_half :
    let report : ℝ → Float := fun _ => 0
    (0 : ℝ) < 3 / 4 ∧ (3 / 4 : ℝ) < 1 ∧
      ∃ k, checkedIterations report (3 / 4) (1 / 2) (1 : ℕ) = .ok k ∧ k = 2 ∧
        (∃ least : ℕ, IsLeast {n | 1 ≤ n ∧ (1 - (1 / 2 : ℝ) ^ 1) ^ n ≤ 1 - 3 / 4} least ∧
          k = min (10 ^ 9) least) ∧
        ∃ k', checkedIterations report (1 / 2) 1 (1 : ℕ) = .ok k' ∧ k' ≤ k := by
  intro report
  have hpos : (0 : ℝ) < 3 / 4 := by norm_num
  have hlt : (3 / 4 : ℝ) < 1 := by norm_num
  obtain ⟨k, hk, -, -, hleast, hmono⟩ :=
    checkedIterations_exact report hpos hlt le_rfl (1 / 2)
  refine ⟨hpos, hlt, k, hk, ?_, ?_, ?_⟩
  · exact Except.ok.inj (hk.symm.trans (checkedIterations_half report))
  · exact hleast (by norm_num) (by norm_num) floor_lt_half
  · exact hmono (1 / 2) 1 1 (by norm_num) (by norm_num) (by norm_num) le_rfl le_rfl

end Required

section Proportion

variable {e p : ℝ} {size : ℕ} {least most : ℤ}

/-- A clamp with integer bounds is a minimum and a maximum. -/
theorem clamp_int (k least most : ℤ) :
    clamp k (.int least) (.int most) = .ok (min (max k least) most) := by
  have hgt : ∀ n m : ℤ, (Number.int n).gt m = decide (m < n) := by
    intro n m
    rw [Number.gt, Number.compare?, Bool.eq_iff_iff, beq_iff_eq, decide_eq_true_eq,
      Option.some.injEq, compare_gt_iff_gt]
  have hlt : ∀ n m : ℤ, (Number.int n).lt m = decide (n < m) := by
    intro n m
    rw [Number.lt, Number.compare?, Bool.eq_iff_iff, beq_iff_eq, decide_eq_true_eq,
      Option.some.injEq, compare_lt_iff_lt]
  unfold clamp
  rw [hgt]
  by_cases hraise : k < least
  · simp only [hraise, decide_true, if_true, hlt, decide_eq_true_eq, max_eq_right hraise.le]
    split
    · rename_i hbelow
      exact congrArg Except.ok (min_eq_right hbelow.le).symm
    · rename_i habove
      exact congrArg Except.ok (min_eq_left (not_lt.mp habove)).symm
  · simp only [hraise, decide_false, Bool.false_eq_true, if_false, hlt, decide_eq_true_eq,
      max_eq_left (not_lt.mp hraise)]
    split
    · rename_i hbelow
      exact congrArg Except.ok (min_eq_right hbelow.le).symm
    · rename_i habove
      exact congrArg Except.ok (min_eq_left (not_lt.mp habove)).symm

/-- Between the edge cases, the number of samples is a quotient of logarithms that is rounded up and
brought between the bounds. -/
theorem sampleCount_eq (he : 0 ≤ e) (he1 : e < 1) (hp1 : p < 1) (hsize : 0 < size) :
    sampleCount e p size (.int least) (.int most) =
      if e = 0 then .ok least
      else .ok (min (max ⌈Real.log (1 - p) / Real.log (1 - (1 - e) ^ size)⌉ least) most) := by
  have hpos : 0 < 1 - e := sub_pos.mpr he1
  unfold sampleCount
  rw [probabilityPower_eq]
  change (if 1 ≤ (1 - e) ^ size then _ else _) = _
  by_cases hnone : e = 0
  · rw [if_pos hnone, if_pos (by rw [hnone, sub_zero, one_pow])]
    rfl
  have hless : (1 - e) ^ size < 1 :=
    pow_lt_one₀ hpos.le (sub_lt_self 1 (lt_of_le_of_ne he (Ne.symm hnone))) hsize.ne'
  have hlog : ∀ x : ℝ, x < 1 → logarithm (-x) = .ok (Real.log (1 - x)) := by
    intro x hx
    unfold logarithm
    rw [if_neg (by linarith)]
    rfl
  rw [if_neg hnone, if_neg (not_le.mpr hless), if_neg (not_le.mpr (pow_pos hpos size)), hlog p hp1,
    hlog _ hless]
  exact clamp_int _ least most

/-- The number of samples for an expected part of outliers is the number of iterations that the
confidence requires for the part of inliers, brought between the bounds. -/
theorem sampleCount_eq_clamp (report : ℝ → Float) (he : 0 ≤ e) (he1 : e < 1) (hp : 0 < p)
    (hp1 : p < 1) (hsize : 1 ≤ size) (hgood : 1 / 10 ^ 300 < (1 - e) ^ size) (hleast : 1 ≤ least)
    (hbounds : least ≤ most) (hmost : most ≤ 10 ^ 9) :
    ∃ k, checkedIterations report p (1 - e) size = .ok k ∧
      sampleCount e p size (.int least) (.int most) = .ok (min (max k least) most) := by
  have hfloor : ¬ (1 - e) ^ size ≤ probabilityFloor := by
    rw [probabilityFloor, Exact.decimal_eq, Nat.cast_one]
    exact not_le.mpr hgood
  rw [checkedIterations_eq hp hp1, sampleCount_eq he he1 hp1 hsize,
    requiredIterations_eq hsize (sub_nonneg.mpr he1.le) (sub_le_self 1 he)]
  by_cases hnone : e = 0
  · rw [if_pos hnone, if_pos (by rw [hnone, sub_zero])]
    refine ⟨1, rfl, congrArg Except.ok ?_⟩
    omega
  · rw [if_neg hnone, if_neg (fun h => hnone (by linarith)), if_neg hfloor]
    refine ⟨_, rfl, congrArg Except.ok ?_⟩
    -- The bounds of the one number are within those of the other, so one of them is enough.
    unfold iterationCap
    omega

/-- With half of the items as outliers, two samples of one item are brought up to five. -/
theorem sampleCount_eq_clamp_half :
    let report : ℝ → Float := fun _ => 0
    (1 / 10 ^ 300 : ℝ) < (1 - 1 / 2) ^ 1 ∧
      ∃ k, checkedIterations report (3 / 4) (1 - 1 / 2) (1 : ℕ) = .ok k ∧ k = 2 ∧
        sampleCount (1 / 2 : ℝ) (3 / 4) (1 : ℕ) (.int 5) (.int 9) = .ok (min (max k 5) 9) := by
  intro report
  have hhalf : (1 - 1 / 2 : ℝ) = 1 / 2 := by norm_num
  have hgood : (1 / 10 ^ 300 : ℝ) < (1 - 1 / 2) ^ 1 := by
    rw [hhalf]
    exact floor_lt_half
  obtain ⟨k, hk, hcount⟩ : ∃ k, checkedIterations report (3 / 4) (1 - 1 / 2) (1 : ℕ) = .ok k ∧
      sampleCount (1 / 2 : ℝ) (3 / 4) (1 : ℕ) (.int 5) (.int 9) = .ok (min (max k 5) 9) :=
    sampleCount_eq_clamp report (by norm_num) (by norm_num) (by norm_num) (by norm_num) le_rfl
      hgood (by norm_num) (by norm_num) (by norm_num)
  refine ⟨hgood, k, hk, ?_, hcount⟩
  rw [hhalf, checkedIterations_half] at hk
  exact (Except.ok.inj hk).symm

end Proportion

end Projectivity.Fitting
