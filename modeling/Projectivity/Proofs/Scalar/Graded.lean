import Projectivity.Proofs.Scalar.Arithmetic
import Projectivity.Proofs.Scalar.Logarithm
import Projectivity.Proofs.Scalar.Power

/-!
# Powers and logarithms of parts keep the order

A power and a logarithm are reckoned in many more digits than a double has, in steps that
keep the order, and rounded once.  So the power of a larger part is not smaller, and the
logarithm of one minus a larger part is not larger, whatever is lost by rounding.
-/

set_option autoImplicit false

namespace Projectivity.Double

open Float.Model (UnpackedFloat Format)
open Float.Model.UnpackedFloat

section Parts

/-- What is less than another double is not undefined, and neither is the other. -/
theorem isNaN_of_lt {x y : Float} (h : x < y) : x.isNaN = false ∧ y.isNaN = false := by
  obtain ⟨a, b, ha, hb, -⟩ := (lt_iff_rank x y).mp h
  exact ⟨(le_refl_iff x).mp ((le_iff_rank x x).mpr ⟨a, a, ha, ha, le_rfl⟩),
    (le_refl_iff y).mp ((le_iff_rank y y).mpr ⟨b, b, hb, hb, le_rfl⟩)⟩

/-- A double between zero and one is a fraction of natural numbers over a power of two. -/
theorem exists_unpack_of_part {x : Float} (hpos : 0 < x) (hlt : x < 1) :
    ∃ (m k : ℕ) (hm : 0 < m), x.toModel.unpack = .finite .positive m (-k) hm ∧ m.log2 < k ∧
      k ≤ 1074 ∧ number x = m / 2 ^ k := by
  obtain ⟨m, e, hm, hunpack, hpart⟩ := exists_of_part hpos hlt
  obtain ⟨-, hleast, -⟩ := canonical_of_unpack hunpack
  obtain ⟨k, rfl⟩ : ∃ k : ℕ, e = -k := ⟨(-e).toNat, by omega⟩
  refine ⟨m, k, hm, hunpack, by omega, by omega, ?_⟩
  rw [number_of_unpack hunpack, zpow_neg, zpow_natCast, div_eq_mul_inv]

end Parts

section Powers

/-- Powers of doubles between zero and one keep their order. -/
theorem pow_le_pow {x y : Float} {n : ℤ} (hn : 0 < n) (hx : 0 < x) (hx1 : x < 1) (hy : 0 < y)
    (hy1 : y < 1) (hxy : x ≤ y) : pow x n ≤ pow y n := by
  obtain ⟨m, e, hm, hunpack, -⟩ := exists_of_part hx hx1
  obtain ⟨l, f, hl, hunpack', -⟩ := exists_of_part hy hy1
  rw [le_iff_number (isNaN_of_lt hx).2 (isNaN_of_lt hy).2, number_of_unpack hunpack,
    number_of_unpack hunpack'] at hxy
  have hvalue : (⟨m, e⟩ : Fraction).value ≤ (⟨l, f⟩ : Fraction).value := hxy
  rw [pow_eq_nearest hunpack hn, pow_eq_nearest hunpack' hn]
  exact (isRounded_nearest _ _).le (isRounded_nearest _ _) (Fraction.value_power_mono hvalue _ _)

end Powers

section Logarithms

open Logarithm

/-- Rounding a negative number is rounding its opposite. -/
theorem nearest_true (m : ℕ) (e : ℤ) : nearest true m e = -nearest false m e := rfl

/-- The logarithm of one minus a tiny part, in the units that it is computed in. -/
theorem ofFraction_near_one : ofFraction (2 ^ 60 - 1) (2 ^ 60) ≤ -2 ^ 132 := by decide +kernel

variable {m n k l : ℕ}

/-- The logarithm of one minus a part decreases with the part. -/
theorem ofFraction_sub_mono (hm : m < 2 ^ k) (hn : n < 2 ^ l) (h : (m : ℚ) / 2 ^ k ≤ n / 2 ^ l) :
    ofFraction (2 ^ l - n) (2 ^ l) ≤ ofFraction (2 ^ k - m) (2 ^ k) := by
  refine ofFraction_mono (by omega) (Nat.two_pow_pos l) (by omega) (Nat.two_pow_pos k) ?_
  rw [Nat.cast_sub hm.le, Nat.cast_sub hn.le, sub_div, sub_div]
  push_cast
  rw [div_self (by positivity), div_self (by positivity)]
  linarith

/-- A part with a small exponent is tiny. -/
theorem lt_of_tiny (h : -(k : ℤ) + m.log2 < -60) : (m : ℚ) / 2 ^ k < 1 / 2 ^ 60 := by
  have hdigits := mul_two_zpow_lt (Nat.lt_log2_self (n := m)) (-k)
  rw [zpow_neg, zpow_natCast, ← div_eq_mul_inv] at hdigits
  refine hdigits.trans_le ((zpow_le_zpow_right₀ one_le_two (n := -60) ?_).trans_eq (by norm_num))
  push_cast
  omega

/-- A part without a small exponent is not tiny. -/
theorem le_of_not_tiny (hm : 0 < m) (h : ¬ -(k : ℤ) + m.log2 < -60) :
    (1 : ℚ) / 2 ^ 60 ≤ m / 2 ^ k := by
  have hdigits := two_zpow_le_mul (Nat.log2_self_le hm.ne') (-k)
  rw [zpow_neg, zpow_natCast, ← div_eq_mul_inv] at hdigits
  exact ((by norm_num : (1 : ℚ) / 2 ^ 60 = 2 ^ (-60 : ℤ)).trans_le
    (zpow_le_zpow_right₀ one_le_two (by omega))).trans hdigits

/-- The logarithm of one minus a part that is not tiny has enough digits. -/
theorem ofFraction_le_of_not_tiny (hm : 0 < m) (hmk : m < 2 ^ k)
    (h : ¬ -(k : ℤ) + m.log2 < -60) : ofFraction (2 ^ k - m) (2 ^ k) ≤ -2 ^ 132 := by
  refine le_trans (ofFraction_sub_mono (m := 1) (k := 60) (by norm_num) hmk ?_) ofFraction_near_one
  exact_mod_cast le_of_not_tiny hm h

/-- What the logarithm of one minus a part lacks of zero, before it is rounded. -/
def shortfall (m k : ℕ) : ℚ :=
  if -(k : ℤ) + m.log2 < -60 then m / 2 ^ k
  else (ofFraction (2 ^ k - m) (2 ^ k)).natAbs * 2 ^ (-192 : ℤ)

/-- The shortfall of a part that is not tiny is not tiny. -/
theorem le_shortfall (hm : 0 < m) (hmk : m < 2 ^ k) (h : ¬ -(k : ℤ) + m.log2 < -60) :
    (1 : ℚ) / 2 ^ 60 ≤ shortfall m k := by
  have hlog := ofFraction_le_of_not_tiny hm hmk h
  have habs : 2 ^ 132 ≤ (ofFraction (2 ^ k - m) (2 ^ k)).natAbs := by omega
  rw [shortfall, if_neg h]
  calc (1 : ℚ) / 2 ^ 60 = (2 ^ 132 : ℕ) * 2 ^ (-192 : ℤ) := by norm_num
    _ ≤ _ := mul_le_mul_of_nonneg_right (by exact_mod_cast habs) (two_zpow_pos _).le

/-- The shortfall increases with the part. -/
theorem shortfall_mono (hm : 0 < m) (hmk : m < 2 ^ k) (hn : 0 < n) (hnl : n < 2 ^ l)
    (h : (m : ℚ) / 2 ^ k ≤ n / 2 ^ l) : shortfall m k ≤ shortfall n l := by
  by_cases hn' : -(l : ℤ) + n.log2 < -60
  · have hm' : -(k : ℤ) + m.log2 < -60 := by
      by_contra hlarge
      exact absurd (h.trans_lt (lt_of_tiny hn')) (not_lt.mpr (le_of_not_tiny hm hlarge))
    rw [shortfall, shortfall, if_pos hm', if_pos hn']
    exact h
  by_cases hm' : -(k : ℤ) + m.log2 < -60
  · refine le_trans ?_ (le_shortfall hn hnl hn')
    rw [shortfall, if_pos hm']
    exact (lt_of_tiny hm').le
  · have hlog := ofFraction_sub_mono hmk hnl h
    have hneg := ofFraction_le_of_not_tiny hm hmk hm'
    have habs : (ofFraction (2 ^ k - m) (2 ^ k)).natAbs ≤
        (ofFraction (2 ^ l - n) (2 ^ l)).natAbs := by omega
    rw [shortfall, shortfall, if_neg hm', if_neg hn']
    exact mul_le_mul_of_nonneg_right (by exact_mod_cast habs) (two_zpow_pos _).le

/-- The logarithm of one minus a part is the negated shortfall, rounded. -/
theorem exists_log1p_neg {x : Float} {hm : 0 < m}
    (hx : x.toModel.unpack = .finite .positive m (-(k : ℤ)) hm) (hpart : m.log2 < k) :
    ∃ a, log1p (-x) = -a ∧ IsRounded (shortfall m k) a := by
  rw [log1p_neg_eq hx hpart]
  unfold shortfall
  split_ifs with htiny
  · refine ⟨x, rfl, ?_⟩
    have hnumber : number x = m / 2 ^ k := by
      rw [number_of_unpack hx, zpow_neg, zpow_natCast, div_eq_mul_inv]
    have hfinite : x.toModel.unpack.isFinite = true := by
      rw [hx]
      rfl
    rw [← hnumber]
    exact isRounded_number hfinite ((zero_le_iff x).mpr (by rw [hx]; trivial))
  · have hlog := ofFraction_le_of_not_tiny hm ((Nat.log2_lt hm.ne').mp hpart) htiny
    rw [decide_eq_true (by omega), nearest_true]
    exact ⟨_, rfl, isRounded_nearest _ _⟩

/-- The logarithm of one minus a part is below zero, and for a larger part it is not larger. -/
theorem exists_log1p_neg_le {x y : Float} (hx : 0 < x) (hx1 : x < 1) (hy : 0 < y) (hy1 : y < 1)
    (hxy : x ≤ y) : ∃ a b, log1p (-x) = -a ∧ log1p (-y) = -b ∧ 0 < a ∧ a ≤ b := by
  obtain ⟨m, k, hm, hunpack, hmk, hk, hnumber⟩ := exists_unpack_of_part hx hx1
  obtain ⟨n, l, hn, hunpack', hnl, -, hnumber'⟩ := exists_unpack_of_part hy hy1
  obtain ⟨a, hlog, ha⟩ := exists_log1p_neg hunpack hmk
  obtain ⟨b, hlog', hb⟩ := exists_log1p_neg hunpack' hnl
  have hdigits := (Nat.log2_lt hm.ne').mp hmk
  refine ⟨a, b, hlog, hlog', ?_, ha.le hb ?_⟩
  · rw [lt_iff_number rfl ha.isNaN_eq, number_zero]
    refine ha.number_pos ?_
    by_cases htiny : -(k : ℤ) + m.log2 < -60
    · rw [shortfall, if_pos htiny, le_div_iff₀ (by positivity), ← zpow_natCast, ← two_zpow_add]
      exact (zpow_le_one_of_nonpos₀ one_le_two (by omega)).trans (by exact_mod_cast hm)
    · refine le_trans ?_ (le_shortfall hm hdigits htiny)
      exact (zpow_le_zpow_right₀ one_le_two (by norm_num)).trans_eq
        (by norm_num : (2 : ℚ) ^ (-60 : ℤ) = 1 / 2 ^ 60)
  · rw [le_iff_number (isNaN_of_lt hx).2 (isNaN_of_lt hy).2, hnumber, hnumber'] at hxy
    exact shortfall_mono hm hdigits hn ((Nat.log2_lt hn.ne').mp hnl) hxy

end Logarithms

section Quotients

/-- The quotient of two negated doubles is that of the doubles, rounded. -/
theorem isRounded_neg_div_neg {a b : Float} (ha : 0 < a) (haf : a.isFinite = true) (hb : 0 < b)
    (hbf : b.isFinite = true) : IsRounded (number a / number b) (-a / -b) := by
  obtain ⟨m, e, hm, hunpack⟩ := exists_unpack_of_pos ha haf
  obtain ⟨n, f, hn, hunpack'⟩ := exists_unpack_of_pos hb hbf
  have hneg : ∀ {x : Float} {m : ℕ} {e : ℤ} {hm : 0 < m},
      x.toModel.unpack = .finite .positive m e hm →
      (-x).toModel.unpack = .finite .negative m e hm := by
    intro x m e hm hx
    rw [unpack_neg, hx]
    rfl
  have hquotient := isRounded_div (hneg hunpack) (hneg hunpack')
  rwa [number_neg, number_neg, neg_div_neg_eq] at hquotient

/-- The quotient by a smaller divisor is not smaller, all of them below zero. -/
theorem neg_div_neg_le {p a b : Float} (hp : 0 < p) (hpf : p.isFinite = true) (ha : 0 < a)
    (hab : a ≤ b) (hbf : b.isFinite = true) : -p / -b ≤ -p / -a := by
  have hanan := (isNaN_of_lt ha).2
  have hbnan := isNaN_of_isFinite hbf
  have hpos : 0 < number a := by rwa [lt_iff_number rfl hanan, number_zero] at ha
  have hnumber := (le_iff_number hanan hbnan).mp hab
  have hb : 0 < b := by
    rw [lt_iff_number rfl hbnan, number_zero]
    exact hpos.trans_le hnumber
  have haf := isFinite_of_le ((le_iff_number rfl hanan).mpr (by rw [number_zero]; exact hpos.le))
    hab hbf
  have hnonneg : 0 ≤ number p := by
    rw [lt_iff_number rfl (isNaN_of_lt hp).2, number_zero] at hp
    exact hp.le
  exact (isRounded_neg_div_neg hp hpf hb hbf).le (isRounded_neg_div_neg hp hpf ha haf)
    (div_le_div_of_nonneg_left hnonneg hpos hnumber)

end Quotients

section Integers

/-- The quotient that a dyadic fraction is converted to is its value. -/
theorem signedNumerator_div (d : Decimal.Dyadic) : (d.signedNumerator : ℚ) / d.denominator =
    if d.negative then -(d.mantissa * 2 ^ d.exponent : ℚ) else d.mantissa * 2 ^ d.exponent := by
  have hfraction : (d.mantissa : ℚ) * 2 ^ d.exponent = d.numerator / d.denominator := by
    have hpow := two_zpow_div_two_zpow d.exponent 0
    rw [zpow_zero, div_one, sub_zero] at hpow
    rw [hpow, ← mul_div_assoc, ← Nat.cast_mul]
    rfl
  rw [hfraction, Decimal.Dyadic.signedNumerator]
  split
  · rw [Int.cast_neg, Int.cast_natCast, neg_div]
  · rw [Int.cast_natCast]

/-- The fraction that is read off a double is the number that it stands for. -/
theorem number_eq_fraction {x : Float} {d : Decimal.Dyadic}
    (h : Decimal.Dyadic.ofFloat? x = some d) : number x = d.signedNumerator / d.denominator := by
  rw [Decimal.Dyadic.ofFloat?_eq] at h
  rw [signedNumerator_div]
  unfold number
  generalize x.toModel.unpack = u at h ⊢
  rcases u with _ | _ | (_ | _) | ⟨_ | _, m, e, hm⟩ <;> cases h
  case zero.negative =>
    show (0 : ℚ) = -((0 : ℕ) * (2 : ℚ) ^ (-1074 : ℤ))
    rw [Nat.cast_zero, zero_mul, neg_zero]
  case zero.positive =>
    show (0 : ℚ) = (0 : ℕ) * (2 : ℚ) ^ (-1074 : ℤ)
    rw [Nat.cast_zero, zero_mul]
  all_goals rfl

/-- A finite double is a dyadic fraction. -/
theorem exists_fraction {x : Float} (h : x.isFinite = true) :
    ∃ d, Decimal.Dyadic.ofFloat? x = some d := by
  rw [Decimal.Dyadic.ofFloat?_eq]
  change x.toModel.unpack.isFinite = true at h
  cases hx : x.toModel.unpack with
  | zero s => exact ⟨_, rfl⟩
  | finite s m e hm => exact ⟨_, rfl⟩
  | _ =>
    rw [hx] at h
    cases h

/-- Rounding half to even gives an integer nearest to the number. -/
theorem isNearest_roundEven {x : Float} (h : x.isFinite = true) :
    IsNearest (number x) (roundEven x) := by
  obtain ⟨d, hd⟩ := exists_fraction h
  have hnearest := isNearest_roundHalfEven d.numerator d.denominator_pos
  unfold roundEven
  rw [hd, number_eq_fraction hd, Decimal.Dyadic.signedNumerator]
  simp only
  split
  · rw [Int.cast_neg, Int.cast_natCast, neg_div]
    exact hnearest.neg
  · rw [Int.cast_natCast]
    exact hnearest

/-- The ceiling of a finite double is the one of its number. -/
theorem ceil_eq {x : Float} (h : x.isFinite = true) : ceil x = ⌈number x⌉ := by
  obtain ⟨d, hd⟩ := exists_fraction h
  have hpos : (0 : ℤ) < d.denominator := by exact_mod_cast d.denominator_pos
  have hpos' : (0 : ℚ) < d.denominator := by exact_mod_cast d.denominator_pos
  have hsplit := Int.mul_ediv_add_emod d.signedNumerator d.denominator
  have hnonneg := Int.emod_nonneg d.signedNumerator hpos.ne'
  have hlt := Int.emod_lt_of_pos d.signedNumerator hpos
  -- The integer `k` is above a fraction if the numerator is among its last multiples.
  have hiff : ∀ k : ℤ, k = ⌈number x⌉ ↔
      (k - 1) * d.denominator < d.signedNumerator ∧ d.signedNumerator ≤ k * d.denominator := by
    intro k
    rw [eq_comm, number_eq_fraction hd, Int.ceil_eq_iff, lt_div_iff₀ hpos', div_le_iff₀ hpos']
    norm_cast
  unfold ceil floorPart
  rw [hd, hiff]
  simp only [bne_iff_ne]
  generalize d.signedNumerator / (d.denominator : ℤ) = q at *
  split_ifs with hmore
  · have hrest : d.signedNumerator % d.denominator ≠ 0 := fun h => hmore (by linarith)
    have := lt_of_le_of_ne hnonneg hrest.symm
    constructor <;> linarith
  · have hexact := not_not.mp hmore
    constructor <;> linarith

/-- The ceiling keeps the order. -/
theorem ceil_le_ceil {x y : Float} (hx : x.isFinite = true) (hy : y.isFinite = true)
    (hxy : x ≤ y) : ceil x ≤ ceil y := by
  rw [ceil_eq hx, ceil_eq hy]
  exact Int.ceil_mono ((le_iff_number (isNaN_of_isFinite hx) (isNaN_of_isFinite hy)).mp hxy)

end Integers

section Naturals

variable {c d n : ℕ}

/-- A positive count up to one that is finite as a double is a positive double. -/
theorem exists_unpack_ofNat (hc : 0 < c) (hcn : c ≤ n) (hfinite : (Float.ofNat n).isFinite = true) :
    ∃ m e hm, (Float.ofNat c).toModel.unpack = .finite .positive m e hm := by
  have hpos : 0 < Float.ofNat c := (zero_lt_iff _).mpr (isPositive_ofNat hc)
  have hle : Float.ofNat c ≤ Float.ofNat n :=
    (isRounded_ofNat c).le (isRounded_ofNat n) (by exact_mod_cast hcn)
  have hnonneg : 0 ≤ Float.ofNat c := (zero_le_iff _).mpr (isPositive_ofNat hc).notNegative
  exact exists_unpack_of_pos hpos (isFinite_of_le hnonneg hle hfinite)

/-- Proportions of a count increase with their part of it. -/
theorem ratio_le_ratio (hc : 0 < c) (hcd : c ≤ d) (hdn : d ≤ n)
    (hfinite : (Float.ofNat n).isFinite = true) :
    Float.ofNat c / Float.ofNat n ≤ Float.ofNat d / Float.ofNat n := by
  obtain ⟨_, _, _, hunpackc⟩ := exists_unpack_ofNat hc (hcd.trans hdn) hfinite
  obtain ⟨_, _, _, hunpackd⟩ := exists_unpack_ofNat (hc.trans_le hcd) hdn hfinite
  obtain ⟨_, _, _, hunpackn⟩ := exists_unpack_ofNat (hc.trans_le (hcd.trans hdn)) le_rfl hfinite
  refine (isRounded_div hunpackc hunpackn).le (isRounded_div hunpackd hunpackn) ?_
  have hnumber : number (Float.ofNat c) ≤ number (Float.ofNat d) :=
    (isRounded_ofNat c).number_le (isRounded_ofNat d) (by exact_mod_cast hcd)
  exact div_le_div_of_nonneg_right hnumber ((isRounded_ofNat n).number_nonneg (Nat.cast_nonneg n))

/-- A share of a number that is a double is not more than the number. -/
theorem roundEven_share_le {p : Float} (hp : 0 < p) (hp1 : p ≤ 1) (hn : 0 < n)
    (hdigits : n ≤ 2 ^ 53) :
    roundEven (p * Float.ofNat n) ≤ n := by
  have hcount := isRounded_ofNat n
  have hnumber := hcount.number_eq (rounds_natCast hdigits) (natCast_lt_overflow hdigits)
  have hfinite : (Float.ofNat n).isFinite = true := by
    rw [isFinite_iff_number hcount.isNaN_eq, hnumber, abs_of_nonneg (Nat.cast_nonneg n)]
    exact natCast_lt_overflow hdigits
  have hnan := (isNaN_of_lt hp).2
  have hpos : 0 ≤ p := by
    rw [lt_iff_number rfl hnan] at hp
    rw [le_iff_number rfl hnan]
    exact hp.le
  obtain ⟨_, _, _, hunpack⟩ := exists_unpack_of_pos hp (isFinite_of_le hpos hp1 rfl)
  obtain ⟨_, _, _, hunpackn⟩ := exists_unpack_ofNat hn le_rfl hfinite
  have hproduct := isRounded_mul hunpack hunpackn
  rw [le_iff_number rfl hnan, number_zero] at hpos
  rw [le_iff_number hnan rfl, number_one] at hp1
  have hle : number (p * Float.ofNat n) ≤ n := by
    rw [← hnumber]
    refine hproduct.number_le hcount ?_
    rw [hnumber]
    exact mul_le_of_le_one_left (Nat.cast_nonneg n) hp1
  have hbelow : (p * Float.ofNat n).isFinite = true := by
    have hnonneg := hproduct.number_nonneg
      (mul_nonneg hpos (hnumber ▸ Nat.cast_nonneg n))
    rw [isFinite_iff_number hproduct.isNaN_eq, abs_of_nonneg hnonneg]
    exact hle.trans_lt (natCast_lt_overflow hdigits)
  exact (isNearest_roundEven hbelow).mono (by exact_mod_cast isNearest_intCast n) hle

end Naturals

end Projectivity.Double
