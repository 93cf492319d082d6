import Projectivity.Proofs.Scalar.Monotone

/-!
# Arithmetic is rounded

The residual digits of a mantissa say between which integers and halves a number lies, and
they go on saying it while the mantissa is shifted.  So the product and the quotient of two
positive doubles, and a natural number as a double, are the exact numbers rounded.
-/

set_option autoImplicit false

namespace Projectivity.Double

open Float.Model (UnpackedFloat Format)
open Float.Model.UnpackedFloat
open ExtendedMantissa

section Residual

/-- A number lies between a mantissa and the next integer where the residual digits say. -/
def Represents : ExtendedMantissa → ℚ → Prop
  | ⟨m, false, false⟩, y => y = m
  | ⟨m, false, true⟩, y => m < y ∧ y < m + 1 / 2
  | ⟨m, true, false⟩, y => y = m + 1 / 2
  | ⟨m, true, true⟩, y => m + 1 / 2 < y ∧ y < m + 1

variable {em : ExtendedMantissa} {y : ℚ}

/-- What a mantissa with residual digits represents is below the next integer. -/
theorem Represents.bounds (h : Represents em y) : em.mantissa ≤ y ∧ y < em.mantissa + 1 := by
  obtain ⟨m, _ | _, _ | _⟩ := em <;> simp only [Represents] at h ⊢ <;> constructor <;> linarith

/-- The rounded mantissa is an integer nearest to what is represented. -/
theorem Represents.isNearest (h : Represents em y) : IsNearest y em.roundedMantissa := by
  obtain ⟨m, roundBit, stickyBit⟩ := em
  cases roundBit <;> cases stickyBit <;>
    simp only [Represents, roundedMantissa, accuracy, Accuracy.roundToNearestEven] at h ⊢
  case false.false => exact h ▸ isNearest_intCast m
  case false.true =>
    refine isNearest_of_lt (abs_lt.mpr ?_)
    push_cast
    constructor <;> linarith
  case true.false =>
    have heven : Even ((m + m % 2 : ℕ) : ℤ) := by
      rw [Int.even_coe_nat, Nat.even_iff]
      omega
    refine isNearest_of_even (abs_le.mpr ?_) heven
    rcases Nat.mod_two_eq_zero_or_one m with hparity | hparity <;> rw [hparity, h] <;>
      push_cast <;> constructor <;> linarith
  case true.true =>
    refine isNearest_of_lt (abs_lt.mpr ?_)
    push_cast
    constructor <;> linarith

/-- Shifting a mantissa by one place halves what it represents. -/
theorem Represents.shiftRightOne (h : Represents em y) : Represents em.shiftRightOne (y / 2) := by
  obtain ⟨m, roundBit, stickyBit⟩ := em
  obtain ⟨q, rfl | rfl⟩ := Nat.even_or_odd' m
  · have hshift : ExtendedMantissa.shiftRightOne ⟨2 * q, roundBit, stickyBit⟩ =
        ⟨q, false, roundBit || stickyBit⟩ := by simp [ExtendedMantissa.shiftRightOne]
    rw [hshift]
    cases roundBit <;> cases stickyBit <;>
      simp only [Represents, Bool.or_false, Bool.or_true] at h ⊢ <;> push_cast at h
    · linarith
    all_goals constructor <;> linarith
  · have hshift : ExtendedMantissa.shiftRightOne ⟨2 * q + 1, roundBit, stickyBit⟩ =
        ⟨q, true, roundBit || stickyBit⟩ := by
      have hhalf : (2 * q + 1) / 2 = q := by omega
      simp [ExtendedMantissa.shiftRightOne, hhalf]
    rw [hshift]
    cases roundBit <;> cases stickyBit <;>
      simp only [Represents, Bool.or_false, Bool.or_true] at h ⊢ <;> push_cast at h
    · linarith
    all_goals constructor <;> linarith

/-- A shifted mantissa represents the number divided by a power of two. -/
theorem Represents.shiftRight (h : Represents em y) (n : ℕ) :
    Represents (em >>> n) (y / 2 ^ n) := by
  change Represents (n.repeat ExtendedMantissa.shiftRightOne em) _
  induction n with
  | zero => simpa [Nat.repeat] using h
  | succ n ih =>
    rw [pow_succ, ← div_div]
    exact ih.shiftRightOne

/-- A mantissa without residual digits represents itself. -/
theorem represents_exact (m : ℕ) : Represents (ofMantissaAndAccuracy m .exact) m := rfl

/-- The remainder of a division says where the quotient lies. -/
theorem represents_quotient (num : ℕ) {den : ℕ} (hden : 0 < den) :
    Represents (ofMantissaAndAccuracy (num / den) (accuracyOfFraction (num % den) den))
      (num / den : ℚ) := by
  have hlt := part_lt_one num hden
  have hbelow := part_lt_half_iff num hden
  have habove := half_lt_part_iff num hden
  rw [div_eq_add_part num hden]
  unfold accuracyOfFraction
  by_cases hexact : num % den = 0
  · have hnothing : part num den = 0 := by rw [part, hexact, Nat.cast_zero, zero_div]
    rw [if_pos hexact, hnothing, add_zero]
    rfl
  have hrest : 0 < part num den :=
    div_pos (by exact_mod_cast Nat.pos_of_ne_zero hexact) (by exact_mod_cast hden)
  rw [if_neg hexact]
  generalize num / den = q
  rcases Nat.lt_trichotomy (2 * (num % den)) den with hless | hequal | hmore
  · have hhalf := hbelow.mpr hless
    rw [compare_lt_iff_lt.mpr hless]
    exact ⟨by linarith, by linarith⟩
  · have hhalf : part num den = 1 / 2 :=
      le_antisymm (not_lt.mp (mt habove.mp hequal.not_gt)) (not_lt.mp (mt hbelow.mp hequal.not_lt))
    rw [compare_eq_iff_eq.mpr hequal, hhalf]
    rfl
  · have hhalf := habove.mpr hmore
    rw [compare_gt_iff_gt.mpr hmore]
    exact ⟨by linarith, by linarith⟩

end Residual

section Rounded

/-- A double is reckoned by rounding a mantissa with its residual digits. -/
def IsPacked (m : ℕ) (e : ℤ) (accuracy : Accuracy) (y : Float) : Prop :=
  y.toModel.unpack = unpack Format.binary64
    (pack Format.binary64 (roundWithAccuracy Format.binary64 .positive m e accuracy))

variable {m r : ℕ} {e t : ℤ} {x : ℚ} {accuracy : Accuracy}

/-- The target exponent of a mantissa is the last place of what it represents. -/
theorem isLastPlace_of_represents
    (h : Represents (ofMantissaAndAccuracy m accuracy) (x / 2 ^ e)) (he : e ≤ target m e) :
    IsLastPlace x (target m e) := by
  have htarget : target m e = max (e + m.log2 - 52) (-1074) := rfl
  have hbounds := h.bounds
  rw [ofMantissaAndAccuracy_mantissa, le_div_iff₀ (two_zpow_pos e),
    div_lt_iff₀ (two_zpow_pos e)] at hbounds
  refine ⟨by omega, ?_, ?_⟩
  · have hdigits : ((m : ℚ) + 1) * 2 ^ e ≤ 2 ^ (m.log2 + 1) * 2 ^ e :=
      mul_le_mul_of_nonneg_right (by exact_mod_cast Nat.lt_log2_self) (two_zpow_pos e).le
    rw [← zpow_natCast, ← two_zpow_add] at hdigits
    refine hbounds.2.trans_le (hdigits.trans (zpow_le_zpow_right₀ one_le_two ?_))
    push_cast
    omega
  · by_cases hleast : target m e = -1074
    · exact Or.inl hleast
    · have hm : m ≠ 0 := by
        rintro rfl
        simp at htarget
        omega
      refine Or.inr (le_trans ?_ ((two_zpow_le_mul (Nat.log2_self_le hm) e).trans hbounds.1))
      exact zpow_le_zpow_right₀ one_le_two (by omega)

/-- A number is rounded at its last place, and a carry is shifted out of the mantissa. -/
theorem roundWithAccuracy_eq (s : Sign)
    (h : Represents (ofMantissaAndAccuracy m accuracy) (x / 2 ^ e)) (he : e ≤ target m e) :
    ∃ r : ℕ, IsNearest (x / 2 ^ target m e) r ∧ roundWithAccuracy Format.binary64 s m e accuracy =
      if hr : r / 2 ^ (target r (target m e) - target m e).toNat = 0 then .zero s
      else .finite s (r / 2 ^ (target r (target m e) - target m e).toNat)
        (max (target m e) (target r (target m e))) (Nat.pos_of_ne_zero hr) := by
  refine ⟨(shiftToTargetExponent Format.binary64 m e accuracy).1.roundedMantissa, ?_, ?_⟩
  · have hshift := (h.shiftRight (target m e - e).toNat).isNearest
    unfold shiftToTargetExponent shiftToExponent
    rw [targetExponent_eq]
    rwa [div_div, ← zpow_natCast, ← two_zpow_add, Int.toNat_of_nonneg (by omega),
      add_sub_cancel] at hshift
  · unfold roundWithAccuracy
    simp only [(shiftToTargetExponent_eq _ _ _).1, (shiftToTargetExponent_eq _ _ _).2,
      max_eq_right he]

/-- A mantissa that needs no rounding is packed with its number, unless it overflows. -/
theorem number_of_pack {y : Float} {q : ℕ} {f : ℤ} {hq : 0 < q} (hdigits : q < 2 ^ 53)
    (hleast : -1074 ≤ f) (hsubnormal : q < 2 ^ 52 → f = -1074) (hy : y.toModel.unpack =
      unpack Format.binary64 (pack Format.binary64 (.finite .positive q f hq))) :
    y.isNaN = false ∧ number y = min ((q : ℚ) * 2 ^ f) overflow := by
  change y.toModel.unpack.isNaN = false ∧ value y.toModel.unpack = _
  rw [hy]
  by_cases hf : f ≤ 971
  · have hcanonical : Canonical (.finite .positive q f hq) := ⟨hdigits, hleast, hf, hsubnormal⟩
    rw [unpack_pack hcanonical]
    rw [min_eq_left hcanonical.magnitude.2.le]
    exact ⟨rfl, rfl⟩
  · have hlead : 2 ^ 52 ≤ q := not_lt.mp fun h => by have := hsubnormal h; omega
    have hlarge : overflow ≤ q * 2 ^ f :=
      (zpow_le_zpow_right₀ one_le_two (by omega)).trans (two_zpow_le_mul hlead f)
    have hbias : Format.binary64.exponentBias = 1023 := rfl
    unfold pack
    simp only [hbias]
    rw [if_pos (by omega), min_eq_right hlarge]
    exact ⟨rfl, rfl⟩

/-- A double that is packed after rounding is the one nearest to the number that its mantissa and
residual digits represent. -/
theorem IsPacked.isRounded {y : Float} (hy : IsPacked m e accuracy y)
    (h : Represents (ofMantissaAndAccuracy m accuracy) (x / 2 ^ e)) (he : e ≤ target m e) :
    IsRounded x y := by
  have hplace := isLastPlace_of_represents h he
  obtain ⟨r, hr, heq⟩ := roundWithAccuracy_eq .positive h he
  have hmost : r ≤ 2 ^ 53 := by exact_mod_cast hplace.nearest_le hr
  have hleast : target m e = -1074 ∨ 2 ^ 52 ≤ r :=
    (hplace.le_nearest hr).imp_right fun h => by exact_mod_cast h
  have hrounds : Rounds x (r * 2 ^ target m e) := ⟨_, r, hplace, hr, by simp⟩
  unfold IsPacked at hy
  rw [heq] at hy
  have hleast' := hplace.least
  generalize target m e = t at *
  have hagain : target r t = max (t + r.log2 - 52) (-1074) := rfl
  rcases Nat.eq_zero_or_pos r with rfl | hpos
  · -- Nothing is left of the number.
    rw [Nat.zero_div, dif_pos rfl] at hy
    have hnumber : value y.toModel.unpack = 0 := by
      rw [hy]
      rfl
    refine ⟨?_, _, hrounds, ?_⟩
    · change y.toModel.unpack.isNaN = false
      rw [hy]
      rfl
    · rw [Nat.cast_zero, zero_mul, min_eq_left overflow_pos.le]
      exact hnumber
  rcases hmost.eq_or_lt with rfl | hdigits
  · -- The carry lengthens the mantissa by one, and rounding again takes a zero off its end.
    have hlog : (2 ^ 53).log2 = 53 := Nat.log2_two_pow
    have hcarry : target (2 ^ 53) t = t + 1 := by omega
    rw [hcarry, show (t + 1 - t).toNat = 1 by omega, dif_neg (by decide),
      max_eq_right (by omega)] at hy
    have hnumber := number_of_pack (by decide) (by omega) (by omega) hy
    refine ⟨hnumber.1, _, hrounds, hnumber.2.trans ?_⟩
    rw [two_zpow_add]
    congr 1
    push_cast
    ring
  · -- The mantissa has its digits already, so rounding again changes nothing.
    have hlog := (Nat.log2_lt hpos.ne').mpr hdigits
    rw [show (target r t - t).toNat = 0 by omega, pow_zero, Nat.div_one, dif_neg hpos.ne',
      max_eq_left (by omega)] at hy
    have hnumber := number_of_pack hdigits hleast' (by omega) hy
    exact ⟨hnumber.1, _, hrounds, hnumber.2⟩

end Rounded

section Operations

variable {x y : Float} {s : Sign} {m n : ℕ} {e f : ℤ} {hm : 0 < m} {hn : 0 < n}

/-- What a double is unpacked to is canonical. -/
theorem canonical_of_unpack (hx : x.toModel.unpack = .finite s m e hm) :
    Canonical (.finite s m e hm) :=
  hx ▸ canonical_unpack x.toModel.toBits.toBitVec

/-- The product of two positive doubles is the exact one rounded. -/
theorem isRounded_mul (hx : x.toModel.unpack = .finite .positive m e hm)
    (hy : y.toModel.unpack = .finite .positive n f hn) :
    IsRounded (number x * number y) (x * y) := by
  have hpacked : IsPacked (m * n) (e + f) .exact (x * y) := by
    change unpack Format.binary64 (pack Format.binary64
      (mul Format.binary64 x.toModel.unpack y.toModel.unpack)) = _
    rw [hx, hy]
    rfl
  refine hpacked.isRounded ?_ ?_
  · have hquotient : number x * number y / 2 ^ (e + f) = (m * n : ℕ) := by
      rw [number_of_unpack hx, number_of_unpack hy, two_zpow_add, Nat.cast_mul]
      field_simp
    rw [hquotient]
    exact represents_exact _
  · have htarget : target (m * n) (e + f) = max (e + f + (m * n).log2 - 52) (-1074) := rfl
    obtain ⟨-, -, -, hm52⟩ := canonical_of_unpack hx
    obtain ⟨-, -, -, hn52⟩ := canonical_of_unpack hy
    by_cases hsmall : m < 2 ^ 52 ∧ n < 2 ^ 52
    · have := hm52 hsmall.1
      have := hn52 hsmall.2
      omega
    · have hlarge : 2 ^ 52 ≤ m * n := by
        rcases not_and_or.mp hsmall with h | h
        · exact (not_lt.mp h).trans (Nat.le_mul_of_pos_right m hn)
        · exact (not_lt.mp h).trans (Nat.le_mul_of_pos_left n hm)
      have hlog := (Nat.le_log2 (Nat.mul_pos hm hn).ne').mpr hlarge
      omega

/-- A quotient has 53 digits if its numerator is longer by as many than its denominator. -/
theorem le_log2_div {k : ℕ} (hm : 0 < m) (hn : 0 < n) (hk : n.log2 + 53 ≤ m.log2 + k) :
    52 ≤ (m * 2 ^ k / n).log2 := by
  have hlog := log2_mul_two_pow hm.ne' k
  have hlarge : 2 ^ 52 ≤ m * 2 ^ k / n := by
    rw [Nat.le_div_iff_mul_le hn]
    calc 2 ^ 52 * n ≤ 2 ^ 52 * 2 ^ (n.log2 + 1) := Nat.mul_le_mul_left _ Nat.lt_log2_self.le
      _ = 2 ^ (52 + (n.log2 + 1)) := (pow_add 2 _ _).symm
      _ ≤ 2 ^ (m * 2 ^ k).log2 := Nat.pow_le_pow_right two_pos (by omega)
      _ ≤ m * 2 ^ k := Nat.log2_self_le (Nat.mul_pos hm (Nat.two_pow_pos k)).ne'
  exact (Nat.le_log2 (lt_of_lt_of_le (by norm_num) hlarge).ne').mpr hlarge

/-- The quotient of two doubles of the same sign is the exact quotient rounded. -/
theorem isRounded_div (hx : x.toModel.unpack = .finite s m e hm)
    (hy : y.toModel.unpack = .finite s n f hn) :
    IsRounded (number x / number y) (x / y) := by
  obtain ⟨k, hcore, hexponent⟩ := divCore_eq m n e f
  have hsign : s / s = .positive := by cases s <;> rfl
  have hpacked : IsPacked (m * 2 ^ k / n) (e - f - k) (accuracyOfFraction (m * 2 ^ k % n) n)
      (x / y) := by
    change unpack Format.binary64 (pack Format.binary64
      (div Format.binary64 x.toModel.unpack y.toModel.unpack)) = _
    rw [hx, hy]
    unfold div
    simp only [hcore, hsign]
  refine hpacked.isRounded ?_ ?_
  · have hratio : number x / number y = m * 2 ^ e / (n * 2 ^ f) := by
      unfold number
      rw [hx, hy]
      cases s <;> simp only [value]
      exact neg_div_neg_eq _ _
    have hquotient : number x / number y / 2 ^ (e - f - k) = (m * 2 ^ k : ℕ) / (n : ℚ) := by
      rw [hratio, zpow_sub₀ two_ne_zero, zpow_sub₀ two_ne_zero, zpow_natCast]
      push_cast
      field_simp
    rw [hquotient]
    exact represents_quotient _ hn
  · have htarget : target (m * 2 ^ k / n) (e - f - k) =
      max (e - f - k + (m * 2 ^ k / n).log2 - 52) (-1074) := rfl
    by_cases hleast : e - f - k ≤ -1074
    · omega
    · have hlead := le_log2_div (k := k) hm hn (by omega)
      omega

/-- A number that was shifted before it was packed is rounded once. -/
theorem isRounded_of_shifted {n : ℕ} (hn : 0 < n) {e : ℤ} {k : ℕ} (hk : e - k ≤ target n e)
    (hy : IsPacked (n * 2 ^ k) (e - k) .exact y) : IsRounded (n * 2 ^ e) y := by
  have hlog := log2_mul_two_pow hn.ne' k
  refine hy.isRounded ?_ ?_
  · have hshift : (n : ℚ) * 2 ^ e / 2 ^ (e - k) = (n * 2 ^ k : ℕ) := by
      rw [zpow_sub₀ two_ne_zero, zpow_natCast]
      push_cast
      field_simp
    rw [hshift]
    exact represents_exact _
  · unfold target at hk ⊢
    omega

/-- Rounding a mantissa without residual digits. -/
theorem isRounded_of_round {n : ℕ} (hn : 0 < n) {e : ℤ} (hy : y.toModel.unpack =
      unpack Format.binary64 (pack Format.binary64
        (UnpackedFloat.round Format.binary64 .positive n e))) : IsRounded (n * 2 ^ e) y := by
  refine isRounded_of_shifted hn (k := (e - target n e).toNat) (by omega) ?_
  rw [IsPacked, hy]
  unfold UnpackedFloat.round decreaseExponent
  simp only [targetExponent_eq, Nat.shiftLeft_eq]

/-- A small natural number is rounded once when it becomes a double. -/
theorem isRounded_toFloat {n : ℕ} (hn : 0 < n) (hsmall : n < 2 ^ 64) :
    IsRounded n n.toUInt64.toFloat := by
  have hnat : n.toUInt64.toNat = n := Nat.mod_eq_of_lt hsmall
  have hpos : compare (n : ℤ) 0 = .gt := compare_gt_iff_gt.mpr (by omega)
  have hy : n.toUInt64.toFloat.toModel.unpack = unpack Format.binary64
      (pack Format.binary64 (UnpackedFloat.ofNat Format.binary64 n.toUInt64.toNat)) := rfl
  have hrounded : IsRounded (n * 2 ^ (0 : ℤ)) n.toUInt64.toFloat := by
    refine isRounded_of_round hn ?_
    rw [hy, hnat]
    unfold UnpackedFloat.ofNat UnpackedFloat.ofInt UnpackedFloat.normalize
    rw [hpos]
    rfl
  rwa [zpow_zero, mul_one] at hrounded

/-- A natural number is rounded once when it becomes a double. -/
theorem isRounded_ofNat (n : ℕ) : IsRounded n (Float.ofNat n) := by
  rcases Nat.eq_zero_or_pos n with rfl | hn
  · exact_mod_cast isRounded_zero
  change IsRounded n (Float.ofScientific n false 0)
  unfold Float.ofScientific
  split
  · -- A small number is converted as it is, and then multiplied by one.
    rename_i hsmall
    simp only [Bool.false_eq_true, if_false]
    have hconverted := isRounded_toFloat hn (by omega)
    have hlt := natCast_lt_overflow hsmall.1.le
    have hnumber := hconverted.number_eq (rounds_natCast hsmall.1.le) hlt
    have hpos : (0 : Float) < n.toUInt64.toFloat := by
      rw [lt_iff_number rfl hconverted.isNaN_eq, hnumber, number_zero]
      exact_mod_cast hn
    have hfinite : n.toUInt64.toFloat.isFinite = true := by
      rwa [isFinite_iff_number hconverted.isNaN_eq, hnumber, abs_of_nonneg (Nat.cast_nonneg n)]
    obtain ⟨m, e, hm, hunpack⟩ := exists_unpack_of_pos hpos hfinite
    have hproduct := isRounded_mul hunpack unpack_one
    rw [hnumber, number_one, mul_one] at hproduct
    exact hproduct
  · have htarget : target n 0 = max ((0 : ℤ) + n.log2 - 52) (-1074) := rfl
    have hscaled : (n : ℚ) = n * 2 ^ (0 : ℤ) := by rw [zpow_zero, mul_one]
    rw [hscaled]
    refine isRounded_of_shifted hn (k := 53) (by omega) ?_
    have hbits : (0 : ℤ) ≤ 2 ^ Format.binary64.exponentBits := by decide
    change unpack Format.binary64 (pack Format.binary64
      (UnpackedFloat.ofScientific Format.binary64 n 0)) = _
    unfold UnpackedFloat.ofScientific
    rw [dif_neg hn.ne', if_neg (by decide), if_neg (by omega), if_pos le_rfl, ← Nat.shiftLeft_eq]
    unfold UnpackedFloat.mul
    simp only [Int.toNat_zero, pow_zero, mul_one]
    rfl

/-- A mantissa in the place of another exponent that is not larger. -/
theorem mantissa_decreased (m : ℕ) {e f : ℤ} (h : f ≤ e) :
    ((m <<< (e - f).toNat : ℕ) : ℚ) * 2 ^ f = m * 2 ^ e := by
  obtain ⟨k, rfl⟩ : ∃ k : ℕ, e = f + k := ⟨(e - f).toNat, by omega⟩
  rw [add_sub_cancel_left, Int.toNat_natCast, Nat.shiftLeft_eq, two_zpow_add, zpow_natCast]
  push_cast
  ring

/-- The difference of a positive double and a smaller one is the exact difference rounded. -/
theorem isRounded_sub (hx : x.toModel.unpack = .finite .positive m e hm)
    (hy : y.toModel.unpack = .finite .positive n f hn) (hlt : number y < number x) :
    IsRounded (number x - number y) (x - y) := by
  rw [number_of_unpack hx, number_of_unpack hy,
    ← mantissa_decreased m (min_le_left e f), ← mantissa_decreased n (min_le_right e f)] at hlt ⊢
  generalize hM : m <<< (e - min e f).toNat = M at hlt ⊢
  generalize hN : n <<< (f - min e f).toNat = N at hlt ⊢
  have hless : N < M := by
    exact_mod_cast lt_of_mul_lt_mul_right hlt (two_zpow_pos _).le
  have hpos : compare ((M : ℤ) - N) 0 = .gt := compare_gt_iff_gt.mpr (by omega)
  rw [← sub_mul, ← Nat.cast_sub hless.le]
  refine isRounded_of_round (Nat.sub_pos_of_lt hless) ?_
  change unpack Format.binary64 (pack Format.binary64
    (sub Format.binary64 x.toModel.unpack y.toModel.unpack)) = _
  rw [hx, hy]
  unfold sub UnpackedFloat.normalize decreaseExponent
  simp only [hM, hN, Sign.apply, hpos]
  congr 3
  omega

end Operations

end Projectivity.Double
