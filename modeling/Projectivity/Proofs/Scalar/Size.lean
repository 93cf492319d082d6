import Projectivity.Proofs.Scalar.Signed

/-!
# The size of what is reckoned

Rounding does not move a number across a power of two.  So a result is finite if the
exact one is bounded by a power of two that doubles have, and bounds of operands by
powers of two give bounds of results.  An operation on something that is not finite does
not give a finite number, but for a quotient by infinity.
-/

set_option autoImplicit false

namespace Projectivity.Double

open Float.Model (UnpackedFloat Format)
open Float.Model.UnpackedFloat

section Rounding

variable {q b c : ℚ} {x : Float} {k : ℤ}

/-- What is at most another number in size is rounded to at most what that number is rounded
to. -/
theorem IsNearestTo.abs_number_le_of_rounds (h : IsNearestTo q x) (hb : Rounds b c)
    (hq : |q| ≤ b) : |number x| ≤ c := by
  obtain ⟨v, hv, hnumber⟩ := h.exists_rounds
  rw [hnumber]
  exact (min_le_left v overflow).trans (hv.mono hb hq)

/-- What is at most a power of two in size is rounded to at most this power. -/
theorem IsNearestTo.abs_number_le (h : IsNearestTo q x) (hk : -1074 ≤ k) (hq : |q| ≤ 2 ^ k) :
    |number x| ≤ 2 ^ k :=
  h.abs_number_le_of_rounds (rounds_two_zpow hk) hq

/-- What is at least a power of two in size is rounded to at least this power. -/
theorem IsNearestTo.le_abs_number (h : IsNearestTo q x) (hk : -1074 ≤ k) (hk' : k ≤ 1024)
    (hq : 2 ^ k ≤ |q|) : 2 ^ k ≤ |number x| := by
  obtain ⟨v, hv, hnumber⟩ := h.exists_rounds
  rw [hnumber]
  exact le_min ((rounds_two_zpow hk).mono hv hq) (zpow_le_zpow_right₀ one_le_two hk')

/-- What is at most a power of two in size that doubles have is rounded to a finite double. -/
theorem IsNearestTo.isFinite (h : IsNearestTo q x) (hk : -1074 ≤ k) (hk' : k ≤ 1023)
    (hq : |q| ≤ 2 ^ k) : x.isFinite = true := by
  rw [isFinite_iff_number h.isNaN_eq]
  exact (h.abs_number_le hk hq).trans_lt (zpow_lt_zpow_right₀ one_lt_two (by omega))

/-- What is at most a finite double in size is rounded to a finite double that is not larger. -/
theorem IsNearestTo.isFinite_of_le {y : Float} (h : IsNearestTo q x) (hy : y.isFinite = true)
    (hq : |q| ≤ |number y|) : x.isFinite = true := by
  have hnan := isNaN_of_isFinite hy
  have hlt := (isFinite_iff_number hnan).mp hy
  obtain ⟨v, hv, hnumber⟩ := (isNearestTo_number hy).exists_rounds
  rw [isFinite_iff_number h.isNaN_eq]
  refine lt_of_le_of_lt ?_ hlt
  rw [hnumber, min_lt_iff, or_iff_left (lt_irrefl overflow)] at hlt
  rw [hnumber, min_eq_left hlt.le]
  exact h.abs_number_le_of_rounds hv hq

/-- What is at least a finite double in size is rounded to at least this size. -/
theorem IsNearestTo.le_abs_number_of_le {y : Float} (h : IsNearestTo q x) (hy : y.isFinite = true)
    (hq : |number y| ≤ |q|) : |number y| ≤ |number x| := by
  obtain ⟨v, hv, hnumber⟩ := (isNearestTo_number hy).exists_rounds
  obtain ⟨w, hw, hresult⟩ := h.exists_rounds
  rw [hnumber, hresult]
  exact min_le_min (hv.mono hw hq) le_rfl

/-- What is less than half of the least place is lost. -/
theorem rounds_to_zero (hq : |q| < 2 ^ (-1075 : ℤ)) : Rounds |q| 0 := by
  have hhalf : |q| / 2 ^ (-1074 : ℤ) < 1 / 2 := by
    rw [div_lt_iff₀ (two_zpow_pos _)]
    refine hq.trans_eq ?_
    rw [show (-1075 : ℤ) = -1 + -1074 by norm_num, two_zpow_add]
    norm_num
  refine ⟨-1074, 0, ⟨le_rfl, hq.trans (zpow_lt_zpow_right₀ one_lt_two (by norm_num)), Or.inl rfl⟩,
    isNearest_of_lt ?_, by rw [Int.cast_zero, zero_mul]⟩
  rwa [Int.cast_zero, sub_zero, abs_of_nonneg (div_nonneg (abs_nonneg q) (two_zpow_pos _).le)]

/-- What is rounded to something other than zero is not less than half of the least place. -/
theorem IsNearestTo.two_zpow_le (h : IsNearestTo q x) (hx : number x ≠ 0) :
    2 ^ (-1075 : ℤ) ≤ |q| := by
  by_contra! hsmall
  exact hx (abs_nonpos_iff.mp (h.abs_number_le_of_rounds (rounds_to_zero hsmall) le_rfl))

/-- A double that is not zero is at least as large as the least place. -/
theorem two_zpow_le_abs_number (hx : x.isFinite = true) (hne : number x ≠ 0) :
    2 ^ (-1074 : ℤ) ≤ |number x| := by
  obtain ⟨v, ⟨e, r, hplace, -, rfl⟩, hnumber⟩ := (isNearestTo_number hx).exists_rounds
  have hpos : 0 < |number x| := abs_pos.mpr hne
  rw [hnumber, lt_min_iff] at hpos
  have hdigit : (1 : ℚ) ≤ r := by
    have hr : 0 < r := by exact_mod_cast pos_of_mul_pos_left hpos.1 (two_zpow_pos e).le
    exact_mod_cast hr
  rw [hnumber]
  refine le_min ?_ (zpow_le_zpow_right₀ one_le_two (by norm_num))
  calc (2 : ℚ) ^ (-1074 : ℤ) ≤ 2 ^ e := zpow_le_zpow_right₀ one_le_two hplace.1
    _ ≤ r * 2 ^ e := le_mul_of_one_le_left (two_zpow_pos e).le hdigit

/-- Rounding moves a number by at most half of its last place. -/
theorem Rounds.abs_sub_le {v : ℚ} (h : Rounds q v) (hq : 0 ≤ q) :
    |v - q| ≤ 2 ^ (-53 : ℤ) * q + 2 ^ (-1075 : ℤ) := by
  obtain ⟨e, r, hplace, hnearest, rfl⟩ := h
  have hsplit : ∀ f : ℤ, (2 : ℚ) ^ (f - 1) = 1 / 2 * 2 ^ f := fun f => by
    rw [zpow_sub_one₀ two_ne_zero, one_div, mul_comm]
  have herror : |r * 2 ^ e - q| ≤ 2 ^ (e - 1) := by
    have hscaled : q - r * 2 ^ e = (q / 2 ^ e - r) * 2 ^ e := by
      rw [sub_mul, div_mul_cancel₀ _ (two_zpow_pos e).ne']
    rw [abs_sub_comm, hscaled, abs_mul, abs_of_pos (two_zpow_pos e), hsplit]
    exact mul_le_mul_of_nonneg_right hnearest.1 (two_zpow_pos e).le
  rcases hplace.le with rfl | hlead
  · exact herror.trans (le_add_of_nonneg_left (mul_nonneg (two_zpow_pos _).le hq))
  · have hplace : (2 : ℚ) ^ (e - 1) = 2 ^ (-53 : ℤ) * 2 ^ (e + 52) := by
      rw [← two_zpow_add]
      congr 1
      omega
    calc |r * 2 ^ e - q| ≤ 2 ^ (-53 : ℤ) * 2 ^ (e + 52) := herror.trans_eq hplace
      _ ≤ 2 ^ (-53 : ℤ) * q := mul_le_mul_of_nonneg_left hlead (two_zpow_pos _).le
      _ ≤ 2 ^ (-53 : ℤ) * q + 2 ^ (-1075 : ℤ) := le_add_of_nonneg_right (two_zpow_pos _).le

/-- Half of the least place is a small part of what is not next to zero. -/
theorem last_place_le (hb : 2 ^ (-1022 : ℤ) ≤ b) : (2 : ℚ) ^ (-1075 : ℤ) ≤ b / 4 := by
  have hplace : (2 : ℚ) ^ (-1075 : ℤ) = 2 ^ (-53 : ℤ) * 2 ^ (-1022 : ℤ) := by
    rw [← two_zpow_add]
    norm_num
  calc (2 : ℚ) ^ (-1075 : ℤ) = 2 ^ (-53 : ℤ) * 2 ^ (-1022 : ℤ) := hplace
    _ ≤ 1 / 4 * b := mul_le_mul (by norm_num) hb (two_zpow_pos _).le (by norm_num)
    _ = b / 4 := by ring

/-- A finite result is as far from the exact one as half of a last place. -/
theorem IsNearestTo.abs_sub_le (h : IsNearestTo q x) (hx : x.isFinite = true) :
    |number x - q| ≤ 2 ^ (-53 : ℤ) * |q| + 2 ^ (-1075 : ℤ) := by
  obtain ⟨v, hv, hnumber⟩ := h.exists_rounds
  have hlt := (isFinite_iff_number h.isNaN_eq).mp hx
  have hsize : |number x| = v := by
    rw [hnumber, min_lt_iff, or_iff_left (lt_irrefl overflow)] at hlt
    rw [hnumber, min_eq_left hlt.le]
  have herror := hv.abs_sub_le (abs_nonneg q)
  rw [← hsize] at herror
  -- The number and what is rounded to it are on the same side of zero.
  rcases le_total 0 q with hq | hq
  · rwa [abs_of_nonneg hq, abs_of_nonneg (h.nonneg hq)] at *
  · rw [abs_of_nonpos hq, abs_of_nonpos (h.nonpos hq), ← neg_add', ← sub_eq_add_neg, abs_neg]
      at herror
    rwa [abs_of_nonpos hq]

/-- What is bounded by a number that is not next to zero is rounded to at most twice that number. -/
theorem IsNearestTo.abs_number_le_two_mul (h : IsNearestTo q x) (hb : 2 ^ (-1022 : ℤ) ≤ b)
    (hq : |q| ≤ b) : |number x| ≤ 2 * b := by
  obtain ⟨v, hv, hnumber⟩ := h.exists_rounds
  have hpart : (2 : ℚ) ^ (-53 : ℤ) * |q| ≤ b / 4 := by
    have hsmall : (2 : ℚ) ^ (-53 : ℤ) ≤ 1 / 4 := by norm_num
    nlinarith [abs_nonneg q]
  have herror : v - |q| ≤ b / 4 + b / 4 :=
    (le_abs_self _).trans ((hv.abs_sub_le (abs_nonneg q)).trans (add_le_add hpart (last_place_le hb)))
  rw [hnumber]
  exact (min_le_left v overflow).trans (by linarith only [herror, hq, abs_nonneg q])

/-- What is at least a number that is not next to zero is rounded to at least half of that number,
if it is rounded to a finite double. -/
theorem IsNearestTo.half_le_abs_number (h : IsNearestTo q x) (hb : 2 ^ (-1022 : ℤ) ≤ b)
    (hq : b ≤ |q|) (hx : x.isFinite = true) : b / 2 ≤ |number x| := by
  have hpart : (2 : ℚ) ^ (-53 : ℤ) * |q| ≤ |q| / 4 := by
    have hsmall : (2 : ℚ) ^ (-53 : ℤ) ≤ 1 / 4 := by norm_num
    nlinarith [abs_nonneg q]
  have herror : |number x - q| ≤ |q| / 4 + |q| / 4 :=
    (h.abs_sub_le hx).trans (add_le_add hpart (last_place_le (hb.trans hq)))
  have hge := abs_sub_abs_le_abs_sub q (number x)
  rw [abs_sub_comm q] at hge
  linarith only [herror, hge, hq]

end Rounding

section Within

/-- A double is finite, and at most a power of two in size. -/
structure Within (k : ℕ) (x : Float) : Prop where
  finite : x.isFinite = true
  le : |number x| ≤ 2 ^ k

variable {x y : Float} {j k : ℕ}

/-- A double nearest to a number that is at most a power of two is so, too. -/
theorem IsNearestTo.within {q : ℚ} (h : IsNearestTo q x) (hk : k ≤ 1023) (hq : |q| ≤ 2 ^ k) :
    Within k x := by
  rw [← zpow_natCast] at hq
  refine ⟨h.isFinite (by omega) (by omega) hq, ?_⟩
  rw [← zpow_natCast]
  exact h.abs_number_le (by omega) hq

/-- What is within a power of two is within a larger one. -/
theorem Within.mono (h : Within j x) (hjk : j ≤ k) : Within k x :=
  ⟨h.finite, h.le.trans (pow_le_pow_right₀ one_le_two hjk)⟩

/-- An opposite is within the same power of two. -/
theorem Within.neg (h : Within k x) : Within k (-x) :=
  ⟨(isFinite_neg x).trans h.finite, by rw [number_neg, abs_neg]; exact h.le⟩

/-- Zero is within every power of two. -/
theorem within_zero : Within k 0 := ⟨rfl, by rw [number_zero, abs_zero]; positivity⟩

/-- One is within every power of two. -/
theorem within_one : Within k 1 :=
  ⟨rfl, by rw [number_one, abs_one]; exact one_le_pow₀ one_le_two⟩

/-- A sum is at most twice as large as its terms. -/
theorem Within.add (hx : Within k x) (hy : Within k y) (hk : k < 1023) : Within (k + 1) (x + y) := by
  refine (isNearestTo_add hx.finite hy.finite).within hk ?_
  rw [pow_succ]
  linarith [abs_add_le (number x) (number y), hx.le, hy.le]

/-- A difference is within the next power of two. -/
theorem Within.sub (hx : Within k x) (hy : Within k y) (hk : k < 1023) : Within (k + 1) (x - y) := by
  refine (isNearestTo_sub hx.finite hy.finite).within hk ?_
  rw [pow_succ]
  linarith [abs_sub (number x) (number y), hx.le, hy.le]

/-- A product is within the product of the powers of two. -/
theorem Within.mul (hx : Within j x) (hy : Within k y) (hjk : j + k ≤ 1023) :
    Within (j + k) (x * y) := by
  refine (isNearestTo_mul hx.finite hy.finite).within hjk ?_
  rw [abs_mul, pow_add]
  exact mul_le_mul hx.le hy.le (abs_nonneg _) (by positivity)

/-- A square is within the square of the power of two. -/
theorem Within.square (hx : Within k x) (hk : k + k ≤ 1023) : Within (k + k) (Scalar.square x) :=
  hx.mul hx hk

/-- A quotient is bounded by the bounds of its terms. -/
theorem Within.div {l : ℤ} (hx : Within j x) (hy : y.isFinite = true) (hl : 2 ^ l ≤ |number y|)
    (hjk : j ≤ k + l) (hk : k ≤ 1023) : Within k (x / y) := by
  have hpos : 0 < |number y| := (two_zpow_pos l).trans_le hl
  refine (isNearestTo_div hx.finite hy (abs_pos.mp hpos)).within hk ?_
  rw [abs_div, div_le_iff₀ hpos]
  calc |number x| ≤ 2 ^ j := hx.le
    _ ≤ 2 ^ k * 2 ^ l := by
      rw [← zpow_natCast, ← zpow_natCast, ← two_zpow_add]
      exact zpow_le_zpow_right₀ one_le_two hjk
    _ ≤ 2 ^ k * |number y| := mul_le_mul_of_nonneg_left hl (by positivity)

end Within

section Zeros

variable {x y z : Float}

/-- A number is rounded to one number only. -/
theorem IsNearestTo.number_eq {q : ℚ} (hx : IsNearestTo q x) (hy : IsNearestTo q y) :
    number x = number y := by
  obtain ⟨v, hv, hxv⟩ := hx.exists_rounds
  obtain ⟨w, hw, hyw⟩ := hy.exists_rounds
  have habs : |number x| = |number y| := by
    rw [hxv, hyw, le_antisymm (hv.mono hw le_rfl) (hw.mono hv le_rfl)]
  rcases le_total 0 q with hq | hq
  · rwa [abs_of_nonneg (hx.nonneg hq), abs_of_nonneg (hy.nonneg hq)] at habs
  · rwa [abs_of_nonpos (hx.nonpos hq), abs_of_nonpos (hy.nonpos hq), neg_inj] at habs

/-- A double is a zero of some sign. -/
structure IsZero (x : Float) : Prop where
  finite : x.isFinite = true
  number_eq : number x = 0

/-- What zero is rounded to is a zero. -/
theorem IsNearestTo.isZero (hx : IsNearestTo 0 x) : IsZero x :=
  ⟨hx.isFinite (k := 0) (by norm_num) (by norm_num) (by norm_num),
    (hx.number_eq (isNearestTo_zero (x := 0) rfl number_zero)).trans number_zero⟩

/-- What is unpacked as a zero is a zero. -/
theorem isZero_of_unpack {s : Sign} (h : x.toModel.unpack = .zero s) : IsZero x :=
  (isNearestTo_of_unpack_zero h).isZero

/-- A zero is unpacked as a zero of some sign. -/
theorem IsZero.exists_unpack (hx : IsZero x) : ∃ s, x.toModel.unpack = .zero s := by
  obtain hzero | ⟨s, m, e, hm, hu⟩ := exists_unpack_of_isFinite hx.finite
  · exact hzero
  · have hnumber := (number_eq_apply hu).symm.trans hx.number_eq
    rcases mul_eq_zero.mp hnumber with hmantissa | hplace
    · have hdigits : s.apply m = 0 := by exact_mod_cast hmantissa
      cases s <;> simp only [Sign.apply] at hdigits <;> omega
    · exact absurd hplace (two_zpow_pos e).ne'

/-- A zero is within every power of two. -/
theorem IsZero.within {k : ℕ} (hx : IsZero x) : Within k x :=
  ⟨hx.finite, by rw [hx.number_eq, abs_zero]; positivity⟩

/-- The zero without a sign is a zero. -/
theorem isZero_zero : IsZero 0 := ⟨rfl, number_zero⟩

/-- A zero times a finite double is a zero. -/
theorem IsZero.mul_left (hx : IsZero x) (hy : y.isFinite = true) : IsZero (x * y) := by
  have hproduct := isNearestTo_mul hx.finite hy
  rw [hx.number_eq, zero_mul] at hproduct
  exact hproduct.isZero

/-- A finite double times a zero is a zero. -/
theorem IsZero.mul_right (hx : x.isFinite = true) (hy : IsZero y) : IsZero (x * y) := by
  have hproduct := isNearestTo_mul hx hy.finite
  rw [hy.number_eq, mul_zero] at hproduct
  exact hproduct.isZero

/-- A sum of zeros is a zero. -/
theorem IsZero.add (hx : IsZero x) (hy : IsZero y) : IsZero (x + y) := by
  have hsum := isNearestTo_add hx.finite hy.finite
  rw [hx.number_eq, hy.number_eq, add_zero] at hsum
  exact hsum.isZero

/-- A difference of zeros is a zero. -/
theorem IsZero.sub (hx : IsZero x) (hy : IsZero y) : IsZero (x - y) := by
  have hdifference := isNearestTo_sub hx.finite hy.finite
  rw [hx.number_eq, hy.number_eq, sub_zero] at hdifference
  exact hdifference.isZero

/-- A zero divided by something else is a zero. -/
theorem IsZero.div (hx : IsZero x) (hy : y.isFinite = true) (hne : number y ≠ 0) :
    IsZero (x / y) := by
  have hquotient := isNearestTo_div hx.finite hy hne
  rw [hx.number_eq, zero_div] at hquotient
  exact hquotient.isZero

/-- What is rounded from the number of a finite double has this number. -/
theorem IsNearestTo.eq_number (hy : IsNearestTo (number x) y) (hx : x.isFinite = true) :
    y.isFinite = true ∧ number y = number x := by
  have hnumber := hy.number_eq (isNearestTo_number hx)
  refine ⟨?_, hnumber⟩
  rw [isFinite_iff_number hy.isNaN_eq, hnumber]
  exact (isFinite_iff_number (isNaN_of_isFinite hx)).mp hx

/-- Adding a zero does not change a number. -/
theorem number_add_zero (hx : x.isFinite = true) (hz : IsZero z) :
    (x + z).isFinite = true ∧ number (x + z) = number x := by
  have hsum := isNearestTo_add hx hz.finite
  rw [hz.number_eq, add_zero] at hsum
  exact hsum.eq_number hx

/-- A number is not changed when it is added to a zero. -/
theorem number_zero_add (hz : IsZero z) (hx : x.isFinite = true) :
    (z + x).isFinite = true ∧ number (z + x) = number x := by
  have hsum := isNearestTo_add hz.finite hx
  rw [hz.number_eq, zero_add] at hsum
  exact hsum.eq_number hx

/-- Subtracting a zero does not change a number. -/
theorem number_sub_zero (hx : x.isFinite = true) (hz : IsZero z) :
    (x - z).isFinite = true ∧ number (x - z) = number x := by
  have hdifference := isNearestTo_sub hx hz.finite
  rw [hz.number_eq, sub_zero] at hdifference
  exact hdifference.eq_number hx

/-- Subtracting from a zero changes the sign of a number. -/
theorem number_zero_sub (hz : IsZero z) (hx : x.isFinite = true) :
    (z - x).isFinite = true ∧ number (z - x) = -number x := by
  have hdifference := isNearestTo_sub hz.finite hx
  rw [hz.number_eq, zero_sub, ← number_neg] at hdifference
  rw [← number_neg]
  exact hdifference.eq_number ((isFinite_neg x).trans hx)

end Zeros

section Roots

open ExtendedMantissa

variable {x : Float} {m : ℕ} {e : ℤ} {hm : 0 < m} {k : ℕ}

/-- The residual digits of the root of a natural number. -/
def rootAccuracy (M : ℕ) : Accuracy :=
  if M - M.sqrt * M.sqrt = 0 then .exact
  else .inexact (if M - M.sqrt * M.sqrt ≤ M.sqrt then .lt else .gt)

/-- The residual digits of a root stand for a number that is on the same side of every integer as
the root is. -/
theorem exists_represents_root (M : ℕ) : ∃ y : ℚ,
    Represents (ofMantissaAndAccuracy M.sqrt (rootAccuracy M)) y ∧
    ∀ r : ℕ, (r * r ≤ M → (r : ℚ) ≤ y) ∧ (M ≤ r * r → y ≤ r) := by
  have hfloor := Nat.sqrt_le M
  have hroot : ∀ r : ℕ, r * r ≤ M → (r : ℚ) ≤ M.sqrt := fun r hr => by
    exact_mod_cast Nat.le_sqrt.mpr hr
  have hnext : ∀ r : ℕ, M - M.sqrt * M.sqrt ≠ 0 → M ≤ r * r → (M.sqrt : ℚ) + 1 ≤ r := by
    intro r hrest hr
    have hlt : M.sqrt < r := Nat.mul_self_lt_mul_self_iff.mp (by omega)
    exact_mod_cast hlt
  unfold rootAccuracy
  by_cases hexact : M - M.sqrt * M.sqrt = 0
  · rw [if_pos hexact]
    refine ⟨M.sqrt, rfl, fun r => ⟨hroot r, fun hr => ?_⟩⟩
    have hle : M.sqrt ≤ r := Nat.mul_self_le_mul_self_iff.mp (by omega)
    exact_mod_cast hle
  rw [if_neg hexact]
  split_ifs
  · refine ⟨M.sqrt + 1 / 4, ⟨by linarith, by linarith⟩, fun r => ⟨fun hr => ?_, fun hr => ?_⟩⟩
    · linarith [hroot r hr]
    · linarith [hnext r hexact hr]
  · refine ⟨M.sqrt + 3 / 4, ⟨by linarith, by linarith⟩, fun r => ⟨fun hr => ?_, fun hr => ?_⟩⟩
    · linarith [hroot r hr]
    · linarith [hnext r hexact hr]

/-- The root is taken of a mantissa with twice as many digits as it is to have. -/
theorem exists_sqrtCore (hm : 0 < m) (e : ℤ) : ∃ (M : ℕ) (f : ℤ),
    sqrtCore Format.binary64 m e = (M.sqrt, f, rootAccuracy M) ∧
    0 < M ∧ (m : ℚ) * 2 ^ e = M * 2 ^ (2 * f) ∧ f ≤ target M.sqrt f := by
  obtain ⟨f, hf⟩ : ∃ f, f = min (e.ediv 2) (Format.binary64.targetExponent
    ((Float.Model.totalExponent m e + 1).ediv 2)) := ⟨_, rfl⟩
  refine ⟨m * 2 ^ (e - 2 * f).toNat, f, ?_, Nat.mul_pos hm (Nat.two_pow_pos _), ?_, ?_⟩
  · unfold sqrtCore rootAccuracy
    simp only [Nat.shiftLeft_eq, ← hf]
  · have hexponent : ((e - 2 * f).toNat : ℤ) = e - 2 * f := by
      have hhalf : f ≤ e / 2 := hf ▸ min_le_left _ _
      omega
    rw [Nat.cast_mul, Nat.cast_pow, Nat.cast_ofNat, mul_assoc, ← zpow_natCast, ← two_zpow_add,
      hexponent, sub_add_cancel]
  · have htarget : target (m * 2 ^ (e - 2 * f).toNat).sqrt f =
      max (f + (m * 2 ^ (e - 2 * f).toNat).sqrt.log2 - 52) (-1074) := rfl
    have hdigits : f ≤ max ((m.log2 + 1 + e + 1) / 2 - 53) (-1074) := hf ▸ min_le_right _ _
    by_cases hleast : f ≤ -1074
    · omega
    have hlarge : 2 ^ 52 ≤ (m * 2 ^ (e - 2 * f).toNat).sqrt := by
      refine Nat.le_sqrt.mpr ?_
      rw [← pow_add]
      refine (Nat.le_log2 (Nat.mul_pos hm (Nat.two_pow_pos _)).ne').mp ?_
      rw [log2_mul_two_pow hm.ne']
      omega
    have hlog := (Nat.le_log2 (lt_of_lt_of_le (by norm_num) hlarge).ne').mpr hlarge
    omega

/-- A root is rounded from a number that is on the same side of every power of two as the exact
root is. -/
theorem exists_isRounded_sqrt (hx : x.toModel.unpack = .finite .positive m e hm) :
    ∃ y, IsRounded y (Scalar.sqrt x) ∧ 0 ≤ y ∧
      ∀ k : ℤ, (2 ^ (2 * k) ≤ number x → 2 ^ k ≤ y) ∧ (number x ≤ 2 ^ (2 * k) → y ≤ 2 ^ k) := by
  obtain ⟨M, f, hcore, hM, hexact, htarget⟩ := exists_sqrtCore hm e
  obtain ⟨y, hy, hside⟩ := exists_represents_root M
  have hpacked : IsPacked M.sqrt f (rootAccuracy M) (Scalar.sqrt x) := by
    change unpack Format.binary64 (pack Format.binary64
      (UnpackedFloat.sqrt Format.binary64 x.toModel.unpack)) = _
    rw [hx]
    unfold UnpackedFloat.sqrt
    simp only [hcore]
  have hone : (1 : ℚ) ≤ y := by exact_mod_cast (hside 1).1 hM
  refine ⟨y * 2 ^ f, hpacked.isRounded ?_ htarget,
    mul_nonneg (zero_le_one.trans hone) (two_zpow_pos f).le, fun k => ?_⟩
  · rwa [mul_div_cancel_right₀ _ (two_zpow_pos f).ne']
  rw [number_of_unpack hx, hexact]
  rcases le_or_gt f k with hfk | hkf
  · obtain ⟨n, rfl⟩ : ∃ n : ℕ, k = f + n := ⟨(k - f).toNat, by omega⟩
    have hsquare : (2 : ℚ) ^ (2 * (f + n)) = (2 ^ n * 2 ^ n : ℕ) * 2 ^ (2 * f) := by
      rw [mul_add, add_comm, two_zpow_add, two_mul (n : ℤ), two_zpow_add, zpow_natCast,
        Nat.cast_mul, Nat.cast_pow, Nat.cast_ofNat]
    have hroot : (2 : ℚ) ^ (f + n) = (2 ^ n : ℕ) * 2 ^ f := by
      rw [add_comm, two_zpow_add, zpow_natCast, Nat.cast_pow, Nat.cast_ofNat]
    rw [hsquare, hroot, mul_le_mul_iff_left₀ (two_zpow_pos _), mul_le_mul_iff_left₀ (two_zpow_pos _),
      mul_le_mul_iff_left₀ (two_zpow_pos _), mul_le_mul_iff_left₀ (two_zpow_pos _)]
    exact ⟨fun h => (hside _).1 (by exact_mod_cast h), fun h => (hside _).2 (by exact_mod_cast h)⟩
  · refine ⟨fun _ => ?_, fun h => absurd h (not_le.mpr ?_)⟩
    · calc (2 : ℚ) ^ k ≤ 2 ^ f := zpow_le_zpow_right₀ one_le_two hkf.le
        _ ≤ y * 2 ^ f := le_mul_of_one_le_left (two_zpow_pos f).le hone
    · calc (2 : ℚ) ^ (2 * k) < 2 ^ (2 * f) := zpow_lt_zpow_right₀ one_lt_two (by omega)
        _ ≤ M * 2 ^ (2 * f) := le_mul_of_one_le_left (two_zpow_pos _).le (by exact_mod_cast hM)

/-- The root of a zero is a zero. -/
theorem IsZero.sqrt (hx : IsZero x) : IsZero (Scalar.sqrt x) := by
  obtain ⟨s, hs⟩ := hx.exists_unpack
  refine isZero_of_unpack (s := s) ?_
  change unpack Format.binary64 (pack Format.binary64
    (UnpackedFloat.sqrt Format.binary64 x.toModel.unpack)) = _
  rw [hs]
  exact unpack_pack_zero s

/-- The root of what is at least a power of four is at least the power of two. -/
theorem le_number_sqrt {k : ℤ} (hx : x.isFinite = true) (hk : -1074 ≤ k) (hk' : k ≤ 1023)
    (h : 2 ^ (2 * k) ≤ number x) : 2 ^ k ≤ number (Scalar.sqrt x) := by
  have hpos : 0 < x := by
    rw [lt_iff_number rfl (isNaN_of_isFinite hx), number_zero]
    exact (two_zpow_pos _).trans_le h
  obtain ⟨m, e, hm, hunpack⟩ := exists_unpack_of_pos hpos hx
  obtain ⟨y, hrounded, -, hside⟩ := exists_isRounded_sqrt hunpack
  exact hrounded.le_number (rounds_two_zpow hk) (zpow_le_zpow_right₀ one_le_two (by omega))
    ((hside k).1 h)

/-- The root of what is at most a power of four is at most the power of two. -/
theorem Within.sqrt (hx : Within (2 * k) x) (hnonneg : 0 ≤ x) (hk : k ≤ 1023) :
    Within k (Scalar.sqrt x) := by
  by_cases hpos : 0 < x
  · obtain ⟨m, e, hm, hunpack⟩ := exists_unpack_of_pos hpos hx.finite
    obtain ⟨y, hrounded, hy, hside⟩ := exists_isRounded_sqrt hunpack
    refine (hrounded.isNearestTo hy).within hk ?_
    have hle := le_of_abs_le hx.le
    rw [← zpow_natCast, Nat.cast_mul] at hle
    rw [abs_of_nonneg hy, ← zpow_natCast]
    exact (hside k).2 hle
  · obtain ⟨s, hs⟩ := exists_unpack_zero hnonneg hpos
    exact (isZero_of_unpack hs).sqrt.within

end Roots

section Largest

variable {x : Float} {l : List Float}

/-- The number of an absolute value. -/
theorem number_abs (x : Float) : number (Scalar.abs x) = |number x| := by
  have hcanonical : Canonical x.toModel.unpack := canonical_unpack x.toModel.toBits.toBitVec
  have hunpack : (Scalar.abs x).toModel.unpack = x.toModel.unpack.abs := by
    refine unpack_pack ?_
    cases hu : x.toModel.unpack with
    | finite s m e hm =>
      rw [hu] at hcanonical
      exact hcanonical
    | _ => trivial
  unfold number
  rw [hunpack]
  have hmagnitude : ∀ (m : ℕ) (e : ℤ), (0 : ℚ) ≤ m * 2 ^ e := fun m e =>
    mul_nonneg (Nat.cast_nonneg m) (two_zpow_pos e).le
  rcases x.toModel.unpack with (_ | _) | _ | s | ⟨_ | _, m, e, hm⟩
  case infinity.negative => exact (abs_of_pos overflow_pos).symm.trans (abs_neg _).symm
  case infinity.positive => exact (abs_of_pos overflow_pos).symm
  case finite.negative => exact (abs_of_nonneg (hmagnitude m e)).symm.trans (abs_neg _).symm
  case finite.positive => exact (abs_of_nonneg (hmagnitude m e)).symm
  all_goals exact abs_zero.symm

/-- The absolute value of a finite double is finite. -/
theorem isFinite_abs (h : x.isFinite = true) : (Scalar.abs x).isFinite = true := by
  have hnan := isNaN_of_isFinite h
  rw [isFinite_iff_number ((isNaN_abs x).trans hnan), number_abs, abs_abs]
  exact (isFinite_iff_number hnan).mp h

/-- The number of the larger one of two finite doubles. -/
theorem number_larger {y : Float} (hx : x.isFinite = true) (hy : y.isFinite = true) :
    (Scalar.larger x y).isFinite = true ∧
      number (Scalar.larger x y) = max (number x) (number y) := by
  have hlt := lt_iff_number (isNaN_of_isFinite hx) (isNaN_of_isFinite hy)
  unfold Scalar.larger
  split_ifs with h
  · exact ⟨hy, (max_eq_right (hlt.mp h).le).symm⟩
  · exact ⟨hx, (max_eq_left (not_lt.mp (mt hlt.mpr h))).symm⟩

/-- What has been found so far is only replaced by something larger. -/
theorem foldl_larger_bounds {m : Float} (hm : m.isFinite = true) (h : ∀ x ∈ l, x.isFinite = true) :
    (l.foldl (fun m x => Scalar.larger m (Scalar.abs x)) m).isFinite = true ∧
      ∀ b : ℚ, number (l.foldl (fun m x => Scalar.larger m (Scalar.abs x)) m) ≤ b ↔
        number m ≤ b ∧ ∀ x ∈ l, |number x| ≤ b := by
  induction l generalizing m with
  | nil => exact ⟨hm, fun b => by simp⟩
  | cons x rest ih =>
    rw [List.forall_mem_cons] at h
    obtain ⟨hfinite, hnumber⟩ := number_larger hm (isFinite_abs h.1)
    obtain ⟨hresult, hle⟩ := ih hfinite h.2
    refine ⟨hresult, fun b => (hle b).trans ?_⟩
    rw [hnumber, number_abs, max_le_iff, List.forall_mem_cons, and_assoc]

/-- The largest of some finite doubles in size is bounded by what bounds all of them. -/
theorem largestAbs_le_iff (h : ∀ x ∈ l, x.isFinite = true) :
    (Scalar.largestAbs l).isFinite = true ∧
      ∀ b : ℚ, 0 ≤ b → (number (Scalar.largestAbs l) ≤ b ↔ ∀ x ∈ l, |number x| ≤ b) := by
  obtain ⟨hfinite, hle⟩ := foldl_larger_bounds (m := 0) rfl h
  exact ⟨hfinite, fun b hb => (hle b).trans (and_iff_right (number_zero.trans_le hb))⟩

/-- The largest of some finite doubles in size is as large as each of them. -/
theorem abs_number_le_largestAbs (h : ∀ x ∈ l, x.isFinite = true) (hx : x ∈ l) :
    |number x| ≤ number (Scalar.largestAbs l) :=
  (((foldl_larger_bounds (m := 0) rfl h).2 _).mp le_rfl).2 x hx

end Largest

section Means

variable {k : ℕ}

/-- The double of a count is at least as large as the count, up to the digits of a mantissa. -/
theorem min_le_number_ofNat (n : ℕ) : (min n (2 ^ 53) : ℕ) ≤ number (Float.ofNat n) := by
  have hmin : (min n (2 ^ 53) : ℕ) ≤ 2 ^ 53 := min_le_right _ _
  exact (isRounded_ofNat n).le_number (rounds_natCast hmin) (natCast_lt_overflow hmin).le
    (by exact_mod_cast min_le_left _ _)

/-- One more is lost on a count that has as many digits as a mantissa: it is halfway to the next
double, and the last digit of the count is even. -/
theorem rounds_lost (k : ℕ) : Rounds ((2 ^ 53 + 1) * 2 ^ k) (2 ^ 53 * 2 ^ k) := by
  have hhalf : ((2 : ℚ) ^ 53 + 1) * 2 ^ k / 2 ^ (k + 1 : ℤ) = 2 ^ 52 + 1 / 2 := by
    rw [two_zpow_add, zpow_natCast, div_eq_iff (by positivity)]
    ring
  have hsize : ∀ n : ℕ, (2 : ℚ) ^ (k + 1 + n : ℤ) = 2 ^ (n + 1) * 2 ^ k := fun n => by
    rw [two_zpow_add, two_zpow_add, zpow_natCast, zpow_natCast]
    ring
  refine ⟨k + 1, 2 ^ 52, ⟨by omega, ?_, Or.inr ?_⟩, ?_, ?_⟩
  · exact (mul_lt_mul_of_pos_right (by norm_num) (by positivity)).trans_eq (hsize 53).symm
  · exact (hsize 52).trans_le (mul_le_mul_of_nonneg_right (by norm_num) (by positivity))
  · rw [hhalf]
    exact isNearest_of_even (by norm_num) (by decide)
  · rw [two_zpow_add, zpow_natCast]
    push_cast
    ring

/-- A sum of doubles that are at most a power of two in size grows by at most this power with each
term, and not any more from a count on that fills the mantissa. -/
theorem abs_number_sum_le {l : List Float} (h : ∀ x ∈ l, Within k x) (hk : k + 53 ≤ 1023) :
    l.sum.isFinite = true ∧ |number l.sum| ≤ (min l.length (2 ^ 53) : ℕ) * 2 ^ k := by
  induction l with
  | nil =>
    have hzero : number ([] : List Float).sum = 0 := rfl
    refine ⟨rfl, ?_⟩
    rw [hzero, abs_zero]
    positivity
  | cons x rest ih =>
    rw [List.forall_mem_cons] at h
    obtain ⟨hfinite, hrest⟩ := ih h.2
    rw [List.sum_cons, List.length_cons]
    have hsum := isNearestTo_add h.1.finite hfinite
    have hterm : |number x + number rest.sum| ≤ ((min rest.length (2 ^ 53) : ℕ) + 1) * 2 ^ k := by
      rw [add_mul, one_mul, add_comm]
      exact (abs_add_le _ _).trans (add_le_add hrest h.1.le)
    have hle : |number (x + rest.sum)| ≤ (min (rest.length + 1) (2 ^ 53) : ℕ) * 2 ^ k := by
      rcases Nat.lt_or_ge rest.length (2 ^ 53) with hlt | hge
      · rw [min_eq_left hlt.le] at hterm
        rw [min_eq_left (Nat.succ_le_of_lt hlt)]
        exact hsum.abs_number_le_of_rounds (rounds_natCast_mul (Nat.succ_le_of_lt hlt) k)
          (by exact_mod_cast hterm)
      · rw [min_eq_right hge] at hterm
        rw [min_eq_right (by omega)]
        have hlost := hsum.abs_number_le_of_rounds (rounds_lost k) (by exact_mod_cast hterm)
        exact_mod_cast hlost
    refine ⟨?_, hle⟩
    rw [isFinite_iff_number hsum.isNaN_eq]
    calc |number (x + rest.sum)| ≤ (min (rest.length + 1) (2 ^ 53) : ℕ) * 2 ^ k := hle
      _ ≤ 2 ^ 53 * 2 ^ k :=
        mul_le_mul_of_nonneg_right (by exact_mod_cast min_le_right _ _) (by positivity)
      _ = 2 ^ ((53 + k : ℕ) : ℤ) := by rw [zpow_natCast, pow_add]
      _ < overflow := zpow_lt_zpow_right₀ one_lt_two (by omega)

/-- A finite double divided by one that is neither finite nor undefined is a zero. -/
theorem isZero_div_infinite {x y : Float} (hx : x.isFinite = true) (hnan : y.isNaN = false)
    (hy : ¬ y.isFinite = true) : IsZero (x / y) := by
  have hquotient : ∃ s, (x / y).toModel.unpack = .zero s := by
    change ∃ s, unpack Format.binary64 (pack Format.binary64
      (div Format.binary64 x.toModel.unpack y.toModel.unpack)) = .zero s
    change x.toModel.unpack.isFinite = true at hx
    change y.toModel.unpack.isNaN = false at hnan
    change ¬ y.toModel.unpack.isFinite = true at hy
    cases hu : x.toModel.unpack <;> cases hv : y.toModel.unpack <;>
      simp [hu, hv, UnpackedFloat.isFinite, UnpackedFloat.isNaN] at hx hnan hy
    all_goals exact ⟨_, unpack_pack_zero _⟩
  obtain ⟨s, hs⟩ := hquotient
  exact isZero_of_unpack hs

/-- A mean is bounded as its terms are. -/
theorem Within.mean {l : List Float} (h : ∀ x ∈ l, Within k x) (hne : l ≠ [])
    (hk : k + 53 ≤ 1023) : Within k (Scalar.mean l) := by
  obtain ⟨hfinite, hsum⟩ := abs_number_sum_le h hk
  have hcount := isRounded_ofNat l.length
  by_cases hlength : (Float.ofNat l.length).isFinite = true
  · have hmin : (1 : ℚ) ≤ (min l.length (2 ^ 53) : ℕ) := by
      have hpos := List.length_pos_iff.mpr hne
      exact_mod_cast le_min hpos (by norm_num)
    have hle := min_le_number_ofNat l.length
    have hpos : 0 < number (Float.ofNat l.length) := by linarith
    refine (isNearestTo_div hfinite hlength hpos.ne').within (by omega) ?_
    rw [abs_div, abs_of_pos hpos, div_le_iff₀ hpos, mul_comm]
    exact hsum.trans (mul_le_mul_of_nonneg_right hle (by positivity))
  · exact (isZero_div_infinite hfinite hcount.isNaN_eq hlength).within

end Means

section Finite

variable {x y : Float} {l : List Float}

/-- What is packed as a finite double is finite. -/
theorem isFinite_of_pack {u : UnpackedFloat}
    (h : (unpack Format.binary64 (pack Format.binary64 u)).isFinite = true) :
    u.isFinite = true := by
  rcases u with (_ | _) | _ | s | ⟨s, m, e, hm⟩
  case infinity.negative => cases h
  case infinity.positive => cases h
  case notANumber => cases h
  all_goals rfl

/-- The terms of a finite sum are finite. -/
theorem isFinite_of_add (h : (x + y).isFinite = true) :
    x.isFinite = true ∧ y.isFinite = true := by
  have hsum := isFinite_of_pack (u := add Format.binary64 x.toModel.unpack y.toModel.unpack) h
  change x.toModel.unpack.isFinite = true ∧ y.toModel.unpack.isFinite = true
  generalize x.toModel.unpack = u, y.toModel.unpack = v at hsum ⊢
  cases u <;> cases v <;> simp_all [UnpackedFloat.add, UnpackedFloat.isFinite]
  -- Two infinities have an infinite sum, or none.
  split_ifs at hsum

/-- The terms of a finite difference are finite. -/
theorem isFinite_of_sub (h : (x - y).isFinite = true) :
    x.isFinite = true ∧ y.isFinite = true := by
  change (x - y).toModel.unpack.isFinite = true at h
  rw [unpack_sub] at h
  obtain ⟨hx, hy⟩ := isFinite_of_add h
  exact ⟨hx, (isFinite_neg y).symm.trans hy⟩

/-- The factors of a finite product are finite. -/
theorem isFinite_of_mul (h : (x * y).isFinite = true) :
    x.isFinite = true ∧ y.isFinite = true := by
  have hproduct := isFinite_of_pack (u := mul Format.binary64 x.toModel.unpack y.toModel.unpack) h
  change x.toModel.unpack.isFinite = true ∧ y.toModel.unpack.isFinite = true
  generalize x.toModel.unpack = u, y.toModel.unpack = v at hproduct ⊢
  cases u <;> cases v <;>
    simp_all [UnpackedFloat.mul, UnpackedFloat.isFinite]

/-- The numerator of a finite quotient is finite. -/
theorem isFinite_of_div (h : (x / y).isFinite = true) : x.isFinite = true := by
  have hquotient := isFinite_of_pack (u := div Format.binary64 x.toModel.unpack y.toModel.unpack) h
  change x.toModel.unpack.isFinite = true
  generalize x.toModel.unpack = u, y.toModel.unpack = v at hquotient ⊢
  cases u <;> cases v <;> simp_all [UnpackedFloat.div, UnpackedFloat.isFinite]

/-- A quotient by a zero is not finite. -/
theorem IsZero.not_isFinite_div (hy : IsZero y) : ¬ (x / y).isFinite = true := by
  intro h
  have hquotient := isFinite_of_pack
    (u := UnpackedFloat.div Format.binary64 x.toModel.unpack y.toModel.unpack) h
  obtain ⟨s, hs⟩ := hy.exists_unpack
  rw [hs] at hquotient
  cases hu : x.toModel.unpack <;> rw [hu] at hquotient <;> cases hquotient

/-- What has a finite root is finite. -/
theorem isFinite_of_sqrt (h : (Scalar.sqrt x).isFinite = true) : x.isFinite = true := by
  have hroot := isFinite_of_pack (u := UnpackedFloat.sqrt Format.binary64 x.toModel.unpack) h
  change x.toModel.unpack.isFinite = true
  generalize x.toModel.unpack = u at hroot ⊢
  rcases u with (_ | _) | _ | s | ⟨s, m, e, hm⟩
  case infinity.negative => cases hroot
  case infinity.positive => cases hroot
  case notANumber => cases hroot
  all_goals rfl

/-- The terms of a finite sum of a list are finite. -/
theorem isFinite_of_sum (h : l.sum.isFinite = true) : ∀ x ∈ l, x.isFinite = true := by
  induction l with
  | nil => exact fun x hx => absurd hx (List.not_mem_nil)
  | cons y rest ih =>
    rw [List.sum_cons] at h
    obtain ⟨hy, hrest⟩ := isFinite_of_add h
    exact List.forall_mem_cons.mpr ⟨hy, ih hrest⟩

/-- The terms of a finite mean are finite. -/
theorem isFinite_of_mean (h : (Scalar.mean l).isFinite = true) : ∀ x ∈ l, x.isFinite = true :=
  isFinite_of_sum (isFinite_of_div h)

end Finite

end Projectivity.Double
