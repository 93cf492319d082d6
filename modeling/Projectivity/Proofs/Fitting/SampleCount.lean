import Projectivity.Proofs.Fitting.Graded
import Projectivity.Proofs.Scalar.Range

/-!
# Numbers of samples among doubles

The number of samples for an expected part of outliers is brought between its bounds only
after it has been computed.  Where a sample of inliers is so improbable that the quotient
of the logarithms leaves the range of doubles, there is nothing left to be bounded.  That
takes samples of at least twenty items.
-/

set_option autoImplicit false

namespace Projectivity

open Double

namespace Fitting

/-- The expected parts of outliers, confidences and sizes of samples for which the number of samples
is not known. -/
inductive Overflows (outliers confidence : Float) (size : ℤ) : Prop
  /-- The size is beyond the range of doubles. -/
  | size (large : limit ≤ size)
  /-- A sample of inliers is so improbable that the quotient is beyond the range of doubles. -/
  | quotient {good : Float} (power : probabilityPower (1 - outliers) size = .ok good)
      (possible : 0 < good) (small : limit * number good ≤ -number (log1p (-confidence)))

section Steps

variable {x y : Float} {q : ℚ}

/-- The logarithm of one minus a part exists. -/
theorem logarithm_neg (hlt : x < 1) : logarithm (-x) = .ok (log1p (-x)) := by
  have hnan := (isNaN_of_lt hlt).1
  rw [lt_iff_number hnan rfl] at hlt
  have habove : ¬ -x ≤ -1 := by
    rw [le_iff_number ((isNaN_neg x).trans hnan) ((isNaN_neg 1).trans rfl), number_neg, number_neg]
    linarith
  exact if_neg habove

/-- A rounded number has a least integer above it exactly if it is below the limit. -/
theorem ceiling_of_isRounded (h : IsRounded q y) (hq : 0 ≤ q) :
    q < limit ∧ (∃ k, ceiling y = .ok k) ∨ limit ≤ q ∧ ceiling y = .error .overflow := by
  unfold ceiling
  rcases lt_or_ge q limit with hlt | hge
  · exact Or.inl ⟨hlt, _, if_pos ((h.isFinite_iff hq).mpr hlt)⟩
  · have hinfinite : ¬ Scalar.isFinite y = true := (h.isFinite_iff hq).not.mpr hge.not_gt
    refine Or.inr ⟨hge, ?_⟩
    rw [if_neg hinfinite, h.isAbove hq hge, Bool.true_or, if_pos rfl]

end Steps

section Powers

variable {e : Float} {size : ℤ}

/-- The floor of probabilities is not next to zero. -/
theorem le_number_floor : 2 ^ (-1012 : ℤ) ≤ number probabilityFloor := by
  have hrank := rank_floor
  unfold number
  generalize (probabilityFloor : Float).toModel.unpack = u at hrank ⊢
  rcases u with (_ | _) | _ | s | ⟨_ | _, m, e, hm⟩
  case finite.positive =>
    simp only [rank, Option.some.injEq, toLex_inj, Prod.mk.injEq, true_and] at hrank
    obtain ⟨rfl, hdigits⟩ := hrank
    have hlead : 2 ^ 52 ≤ m := by omega
    exact (zpow_le_zpow_right₀ one_le_two (by norm_num)).trans (two_zpow_le_mul hlead (-1049))
  all_goals simp [rank] at hrank

/-- The probability of a sample of inliers is a number between zero and one, unless the size of the
sample is beyond the range of doubles.  It is not tiny for a small sample. -/
theorem probabilityPower_cases (he : 0 ≤ e) (he1 : e < 1) (hsize : 1 ≤ size) :
    limit ≤ size ∧ probabilityPower (1 - e) size = .error .overflow ∨
      (size : ℚ) < limit ∧ ∃ good, probabilityPower (1 - e) size = .ok good ∧
        good.isFinite = true ∧ 0 ≤ number good ∧ number good ≤ 1 ∧
        (size ≤ 19 → 2 ^ (-1007 : ℤ) ≤ number good) := by
  obtain ⟨n, rfl⟩ := Int.eq_ofNat_of_zero_le (zero_le_one.trans hsize)
  have hn : 0 < n := by omega
  have hrange := (isRounded_ofNat n).isFinite_iff (Nat.cast_nonneg n)
  unfold probabilityPower
  simp only [Int.cast_natCast]
  rcases lt_or_ge (n : ℚ) limit with hlt | hge
  · have hfinite : (Float.ofNat n).isFinite = true := hrange.mpr hlt
    have hexponent : (scalarOf n : Result Float) = .ok (Float.ofNat n) :=
      scalarOf_eq_ok.mpr ⟨hfinite, rfl⟩
    obtain ⟨hpos, hexact⟩ := roundEven_ofNat hn hfinite
    obtain ⟨hbase, hlow, hhigh⟩ := one_sub_bounds he he1
    have habove : 0 < 1 - e := by
      rw [lt_iff_number rfl (isNaN_of_isFinite hbase), number_zero]
      exact (two_zpow_pos _).trans_le hlow
    obtain ⟨m, f, hm, hunpack⟩ := exists_unpack_of_pos habove hbase
    obtain ⟨hpower, hnonneg, hle⟩ := pow_bounds hunpack hhigh hpos
    have hpower' : Scalar.isFinite (Scalar.pow (1 - e) (Scalar.roundEven (Float.ofNat n))) = true :=
      hpower
    refine Or.inr ⟨hlt, _, ?_, hpower, hnonneg, hle, ?_⟩
    · rw [hexponent]
      simp only [bind, Except.bind]
      rw [hpower', if_neg (by omega), if_neg (by simp)]
      rfl
    · intro hsmall
      have hround := hexact (by omega)
      exact le_number_pow hunpack hlow hpos (by omega)
  · have hinfinite : (scalarOf n : Result Float) = .error .overflow :=
      if_neg (hrange.not.mpr hge.not_gt)
    exact Or.inl ⟨hge, by rw [hinfinite]; rfl⟩

end Powers

section Counts

variable {e p good : Float} {size least most : ℤ}

/-- A power that fails is the fault of the number of samples. -/
theorem sampleCount_of_error {cause : Fault}
    (h : probabilityPower (1 - e) size = .error cause) :
    sampleCount e p size (.int least) (.int most) = .error cause := by
  change (probabilityPower (1 - e) size).bind _ = _
  rw [h]
  rfl

/-- The number of samples by the power that a sample is good with. -/
theorem sampleCount_of_ok (h : probabilityPower (1 - e) size = .ok good) :
    sampleCount e p size (.int least) (.int most) =
      if 1 ≤ good then .ok least
      else if good ≤ 0 then .ok most
      else (do
        let failure ← logarithm (-p)
        let decay ← logarithm (-good)
        let k ← ceiling (failure / decay)
        clamp k (.int least) (.int most)) := by
  change (probabilityPower (1 - e) size).bind _ = _
  rw [h]
  rfl

/-- The number of samples for a sample of inliers that is neither sure nor impossible. -/
theorem sampleCount_of_part (h : probabilityPower (1 - e) size = .ok good) (hgood : 0 < good)
    (hgood1 : good < 1) (hp1 : p < 1) :
    sampleCount e p size (.int least) (.int most) =
      (ceiling (log1p (-p) / log1p (-good))).map fun k => min (max k least) most := by
  have hnan := (isNaN_of_lt hgood1).1
  have hless : ¬ 1 ≤ good := by
    rw [le_iff_number rfl hnan, not_le]
    exact (lt_iff_number hnan rfl).mp hgood1
  have hmore : ¬ good ≤ 0 := by
    rw [le_iff_number hnan rfl, not_le]
    exact (lt_iff_number rfl hnan).mp hgood
  rw [sampleCount_of_ok h, if_neg hless, if_neg hmore, logarithm_neg hp1,
    logarithm_neg hgood1]
  change (ceiling (log1p (-p) / log1p (-good))).bind _ = _
  cases ceiling (log1p (-p) / log1p (-good)) with
  | error cause => rfl
  | ok k => exact clamp_int k least most

section Domain

variable (he : 0 ≤ e) (he1 : e < 1) (hp : 0 < p) (hp1 : p < 1) (hsize : 1 ≤ size)
include he he1 hsize

/-- Where the probability of a sample of inliers is known, it decides about the number of samples. -/
theorem overflows_iff (h : probabilityPower (1 - e) size = .ok good) :
    Overflows e p size ↔ 0 < good ∧ limit * number good ≤ -number (log1p (-p)) := by
  constructor
  · rintro (hlarge | ⟨hother, hpos, hsmall⟩)
    · rcases probabilityPower_cases he he1 hsize with ⟨-, herror⟩ | ⟨hlt, -⟩
      · exact absurd (herror.symm.trans h) (by simp)
      · exact absurd hlarge (not_le.mpr hlt)
    · obtain rfl := Except.ok.inj (h.symm.trans hother)
      exact ⟨hpos, hsmall⟩
  · exact fun ⟨hpos, hsmall⟩ => .quotient h hpos hsmall

include hp hp1

/-- A power that is not next to zero does not overflow the quotient. -/
theorem not_overflows (h : probabilityPower (1 - e) size = .ok good)
    (hlow : 2 ^ (-1012 : ℤ) ≤ number good) : ¬ Overflows e p size := by
  rw [overflows_iff he he1 hsize h]
  rintro ⟨-, hsmall⟩
  exact absurd (hsmall.trans_lt (neg_log1p_neg_lt hp hp1)) (lt_limit_mul hlow).not_gt

/-- The number of samples is between the bounds, or it is not known. -/
theorem sampleCount_cases (hbounds : least ≤ most) :
    (¬ Overflows e p size ∧ ∃ k, sampleCount e p size (.int least) (.int most) = .ok k ∧
        least ≤ k ∧ k ≤ most) ∨
      (Overflows e p size ∧ sampleCount e p size (.int least) (.int most) = .error .overflow) := by
  rcases probabilityPower_cases he he1 hsize with
    ⟨hlarge, herror⟩ | ⟨-, good, hpower, hfinite, hnonneg, hle, -⟩
  · exact Or.inr ⟨.size hlarge, sampleCount_of_error herror⟩
  have hnan := isNaN_of_isFinite hfinite
  rcases hle.lt_or_eq with hless | hone
  · rcases hnonneg.lt_or_eq with hpos | hzero
    · have hgood : 0 < good := by rwa [lt_iff_number rfl hnan, number_zero]
      have hgood1 : good < 1 := by rwa [lt_iff_number hnan rfl, number_one]
      obtain ⟨q, hq, hrounded, hiff⟩ := exists_log_quotient hp hp1 hgood hgood1
      rw [overflows_iff he he1 hsize hpower, ← hiff, sampleCount_of_part hpower hgood hgood1 hp1]
      rcases ceiling_of_isRounded hrounded hq with ⟨hlt, k, hk⟩ | ⟨hge, herror⟩
      · rw [hk]
        exact Or.inl ⟨fun h => h.2.not_gt hlt, _, rfl, le_min (le_max_right k least) hbounds,
          min_le_right _ most⟩
      · rw [herror]
        exact Or.inr ⟨⟨hgood, hge⟩, rfl⟩
    · -- No sample of inliers is expected at all.
      have hgood : good ≤ 0 := by rw [le_iff_number hnan rfl, number_zero, hzero]
      have hless' : ¬ 1 ≤ good := by rwa [le_iff_number rfl hnan, number_one, not_le]
      rw [overflows_iff he he1 hsize hpower, sampleCount_of_ok hpower, if_neg hless', if_pos hgood]
      refine Or.inl ⟨?_, most, rfl, hbounds, le_rfl⟩
      rintro ⟨hpos, -⟩
      rw [lt_iff_number rfl hnan, number_zero, hzero] at hpos
      exact lt_irrefl _ hpos
  · have hgood : 1 ≤ good := by rw [le_iff_number rfl hnan, number_one, hone]
    rw [sampleCount_of_ok hpower, if_pos hgood]
    refine Or.inl ⟨not_overflows he he1 hp hp1 hsize hpower ?_, least, rfl, le_rfl, hbounds⟩
    rw [hone]
    exact zpow_le_one_of_nonpos₀ one_le_two (by norm_num)

/-- For an expected part of outliers from zero on and below one and a confidence between zero and one
there is a number of samples between the bounds exactly if nothing leaves the range of doubles, and
otherwise the only answer is an overflow.  Samples of at most nineteen items are safe, and so are
all of those that have inliers only with a probability above the floor of an adaptive rule. -/
theorem sampleCount_iff (hbounds : least ≤ most) :
    ((∃ k, sampleCount e p size (.int least) (.int most) = .ok k ∧ least ≤ k ∧ k ≤ most) ↔
        ¬ Overflows e p size) ∧
      (Overflows e p size → sampleCount e p size (.int least) (.int most) = .error .overflow) ∧
      (size ≤ 19 → ¬ Overflows e p size) ∧
      ∀ good, probabilityPower (1 - e) size = .ok good → probabilityFloor < good →
        ¬ Overflows e p size := by
  refine ⟨?_, ?_, ?_, ?_⟩
  · rcases sampleCount_cases he he1 hp hp1 hsize hbounds with ⟨hknown, hk⟩ | ⟨hunknown, herror⟩
    · exact iff_of_true hk hknown
    · refine iff_of_false ?_ (not_not.mpr hunknown)
      rintro ⟨k, hk, -⟩
      exact absurd (herror.symm.trans hk) (by simp)
  · intro hunknown
    rcases sampleCount_cases he he1 hp hp1 hsize hbounds with ⟨hknown, -⟩ | ⟨-, herror⟩
    · exact absurd hunknown hknown
    · exact herror
  · intro hsmall
    rcases probabilityPower_cases he he1 hsize with ⟨hlarge, -⟩ | ⟨-, good, hpower, -, -, -, hlow⟩
    · have hbelow : (size : ℚ) < limit :=
        lt_of_le_of_lt (by exact_mod_cast hsmall) ((by norm_num : (19 : ℚ) < 2 ^ (5 : ℤ)).trans_le
          ((zpow_le_zpow_right₀ one_le_two (by norm_num)).trans two_zpow_le_limit))
      exact absurd hlarge (not_le.mpr hbelow)
    · exact not_overflows he he1 hp hp1 hsize hpower
        ((zpow_le_zpow_right₀ one_le_two (by norm_num)).trans (hlow hsmall))
  · intro good hpower hfloor
    have hnumber := (lt_iff_number (isNaN_of_lt hfloor).1 (isNaN_of_lt hfloor).2).mp hfloor
    exact not_overflows he he1 hp hp1 hsize hpower (le_number_floor.trans hnumber.le)

end Domain

/-- Half of the items are outliers, and samples hold four items. -/
theorem sampleCount_iff_half :
    (0 : Float) ≤ 0.5 ∧ (0.5 : Float) < 1 ∧ (0 : Float) < 0.99 ∧ (0.99 : Float) < 1 ∧
      ∃ k, sampleCount (0.5 : Float) 0.99 4 (.int 10) (.int 100000) = .ok k ∧ 10 ≤ k ∧
        k ≤ 100000 := by
  have he : (0 : Float) ≤ 0.5 := by decide +kernel
  have he1 : (0.5 : Float) < 1 := by decide +kernel
  have hp : (0 : Float) < 0.99 := by decide +kernel
  have hp1 : (0.99 : Float) < 1 := by decide +kernel
  obtain ⟨hiff, -, hsmall, -⟩ := sampleCount_iff he he1 hp hp1 (by decide : (1 : ℤ) ≤ 4)
    (by decide : (10 : ℤ) ≤ 100000)
  exact ⟨he, he1, hp, hp1, hiff.mpr (hsmall (by decide))⟩

/-- Where all but the least part of the items are outliers, samples of twenty items have no number,
although the bounds allow for `100000` of them. -/
theorem not_sampleCount_of_many_outliers :
    (0 : Float) ≤ 0.9999999999999999 ∧ (0.9999999999999999 : Float) < 1 ∧
      (0 : Float) < 0.99 ∧ (0.99 : Float) < 1 ∧
      ¬ ∃ k, sampleCount (0.9999999999999999 : Float) 0.99 20 (.int 10) (.int 100000) = .ok k ∧
        10 ≤ k ∧ k ≤ 100000 := by
  refine ⟨by decide +kernel, by decide +kernel, by decide +kernel, by decide +kernel, ?_⟩
  have hnone : (sampleCount (0.9999999999999999 : Float) 0.99 20 (.int 10)
      (.int 100000)).toOption = none := by decide +kernel
  rintro ⟨k, hk, -⟩
  rw [hk] at hnone
  cases hnone

end Counts

end Fitting

end Projectivity
