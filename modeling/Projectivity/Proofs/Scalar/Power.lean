import Projectivity.Proofs.Scalar.Value

/-!
# Powers of parts

A product of binary fractions only loses digits when it is cut, and so the powers of a
number that is at most one are at most one, also after they are rounded.
-/

set_option autoImplicit false

namespace Projectivity.Double

open Float.Model (UnpackedFloat Format)
open Float.Model.UnpackedFloat

namespace Fraction

/-- The number that a binary fraction stands for. -/
def value (a : Fraction) : ℚ := a.mantissa * (2 : ℚ) ^ a.exponent

/-- A fraction is not negative. -/
theorem value_nonneg (a : Fraction) : 0 ≤ a.value :=
  mul_nonneg (Nat.cast_nonneg _) (zpow_nonneg (by norm_num) _)

/-- A fraction does not grow when it is cut. -/
theorem value_cut_le (a : Fraction) : a.cut.value ≤ a.value := by
  have hpow : ∀ k, Nat.pow 2 k = 2 ^ k := fun k => rfl
  unfold cut value
  simp only [hpow]
  generalize a.mantissa.log2 + 1 - digits = excess
  calc ((a.mantissa / 2 ^ excess : ℕ) : ℚ) * 2 ^ (a.exponent + excess)
      ≤ (a.mantissa : ℚ) / (2 ^ excess : ℕ) * 2 ^ (a.exponent + excess) :=
        mul_le_mul_of_nonneg_right Nat.cast_div_le (zpow_nonneg (by norm_num) _)
    _ = a.mantissa * 2 ^ a.exponent := by
        rw [zpow_add₀ (by norm_num), zpow_natCast, Nat.cast_pow, Nat.cast_ofNat]
        field_simp

/-- Nothing that fits into the digits that are kept is lost by a cut. -/
theorem le_value_cut {a b : Fraction} (h : a.value ≤ b.value) (ha : a.mantissa < 2 ^ digits) :
    a.value ≤ b.cut.value := by
  have hpow : ∀ k, Nat.pow 2 k = 2 ^ k := fun k => rfl
  have hdigits : digits = 256 := rfl
  unfold cut
  simp only [hpow]
  obtain ⟨k, hk⟩ : ∃ k, b.mantissa.log2 + 1 - digits = k := ⟨_, rfl⟩
  rw [hk]
  unfold value at h ⊢
  rcases Nat.eq_zero_or_pos k with rfl | hpos
  · simpa using h
  by_cases hlow : a.exponent < b.exponent + k
  · -- The fraction has not as many digits in front of the last one that is kept.
    have hlead : 2 ^ 255 ≤ b.mantissa / 2 ^ k := by
      rw [Nat.le_div_iff_mul_le (Nat.two_pow_pos k), ← pow_add]
      refine (Nat.pow_le_pow_right two_pos (by omega)).trans (Nat.log2_self_le ?_)
      intro hzero
      rw [hzero, Nat.log2_zero] at hk
      omega
    calc (a.mantissa : ℚ) * 2 ^ a.exponent
        ≤ 2 ^ (256 : ℤ) * 2 ^ a.exponent :=
          mul_le_mul_of_nonneg_right (by exact_mod_cast ha.le) (two_zpow_pos _).le
      _ ≤ 2 ^ (255 : ℤ) * 2 ^ (b.exponent + k) := by
          rw [← two_zpow_add, ← two_zpow_add]
          exact zpow_le_zpow_right₀ one_le_two (by omega)
      _ ≤ (b.mantissa / 2 ^ k : ℕ) * 2 ^ (b.exponent + k) :=
          mul_le_mul_of_nonneg_right (by exact_mod_cast hlead) (two_zpow_pos _).le
  · obtain ⟨j, hj⟩ : ∃ j : ℕ, a.exponent = j + (b.exponent + k) :=
      ⟨(a.exponent - (b.exponent + k)).toNat, by omega⟩
    rw [hj, two_zpow_add, ← mul_assoc] at h ⊢
    rw [add_comm b.exponent, two_zpow_add, ← mul_assoc] at h
    have hscaled := le_of_mul_le_mul_right h (two_zpow_pos _)
    rw [zpow_natCast, zpow_natCast] at hscaled
    have hwhole : a.mantissa * 2 ^ j ≤ b.mantissa / 2 ^ k := by
      rw [Nat.le_div_iff_mul_le (Nat.two_pow_pos k)]
      exact_mod_cast hscaled
    rw [zpow_natCast]
    exact mul_le_mul_of_nonneg_right (by exact_mod_cast hwhole) (two_zpow_pos _).le

/-- The digits of a fraction that is cut are bounded. -/
theorem mantissa_cut_lt (a : Fraction) : a.cut.mantissa < 2 ^ digits := by
  have hpow : ∀ k, Nat.pow 2 k = 2 ^ k := fun k => rfl
  unfold cut
  simp only [hpow]
  rw [Nat.div_lt_iff_lt_mul (Nat.two_pow_pos _), ← pow_add]
  exact Nat.lt_log2_self.trans_le (Nat.pow_le_pow_right two_pos (by omega))

/-- A cut keeps the order. -/
theorem value_cut_mono {a b : Fraction} (h : a.value ≤ b.value) : a.cut.value ≤ b.cut.value :=
  le_value_cut ((value_cut_le a).trans h) (mantissa_cut_lt a)

/-- The product of the mantissas at the sum of the exponents is the product. -/
theorem value_product (a b : Fraction) :
    (⟨a.mantissa * b.mantissa, a.exponent + b.exponent⟩ : Fraction).value = a.value * b.value := by
  unfold value
  rw [Nat.cast_mul, zpow_add₀ (by norm_num)]
  ring

/-- A product that is cut is at most the product. -/
theorem value_mul_le (a b : Fraction) : (mul a b).value ≤ a.value * b.value :=
  (value_cut_le _).trans (value_product a b).le

/-- Products that are cut keep the order. -/
theorem value_mul_mono {a b c d : Fraction} (hac : a.value ≤ c.value) (hbd : b.value ≤ d.value) :
    (mul a b).value ≤ (mul c d).value := by
  refine value_cut_mono ?_
  rw [value_product, value_product]
  exact mul_le_mul hac hbd b.value_nonneg c.value_nonneg

/-- Powers keep the order of their bases.  The induction is on the number of squarings that are
left, over every pair of bases. -/
theorem value_power_mono {a b : Fraction} (h : a.value ≤ b.value) (n fuel : ℕ) :
    (power a n fuel).value ≤ (power b n fuel).value := by
  induction fuel generalizing a b n with
  | zero => exact le_rfl
  | succ fuel ih =>
    have hhalf := ih (value_mul_mono h h) (n / 2)
    unfold power
    simp only
    split
    · exact le_rfl
    · split
      · exact value_mul_mono h hhalf
      · exact hhalf

/-- A product of fractions up to one is at most one. -/
theorem value_mul_le_one {a b : Fraction} (ha : a.value ≤ 1) (hb : b.value ≤ 1) :
    (mul a b).value ≤ 1 :=
  (value_mul_le a b).trans (mul_le_one₀ ha b.value_nonneg hb)

/-- The powers of a fraction that is at most one are at most one.  The induction is on the number of
squarings that are left, over every base. -/
theorem value_power_le_one {base : Fraction} (h : base.value ≤ 1) (n fuel : ℕ) :
    (power base n fuel).value ≤ 1 := by
  induction fuel generalizing base n with
  | zero => norm_num [power, value]
  | succ fuel ih =>
    have hhalf := ih (value_mul_le_one h h) (n / 2)
    unfold power
    simp only
    split
    · norm_num [value]
    · split
      · exact value_mul_le_one h hhalf
      · exact hhalf

/-- The mantissa of a fraction up to one is bounded by its exponent. -/
theorem mantissa_le_of_value_le_one {a : Fraction} (h : a.value ≤ 1) :
    a.mantissa * 2 ^ a.exponent.toNat ≤ 2 ^ (-a.exponent).toNat := by
  have hsplit : (2 : ℚ) ^ a.exponent * 2 ^ (-a.exponent).toNat = 2 ^ a.exponent.toNat := by
    rw [← zpow_natCast, ← zpow_natCast, ← zpow_add₀ (by norm_num)]
    congr 1
    omega
  have hscaled := mul_le_mul_of_nonneg_right h
    (pow_nonneg (by norm_num : (0 : ℚ) ≤ 2) (-a.exponent).toNat)
  rw [value, mul_assoc, hsplit, one_mul] at hscaled
  exact_mod_cast hscaled

/-- A fraction whose leading digit is behind the point is at most one. -/
theorem value_le_one_of_log2 {m : ℕ} {e : ℤ} (h : e + m.log2 < 0) :
    (⟨m, e⟩ : Fraction).value ≤ 1 := by
  have hdigits : (m : ℚ) ≤ 2 ^ (m.log2 + 1) := by exact_mod_cast Nat.lt_log2_self.le
  calc (m : ℚ) * 2 ^ e
      ≤ 2 ^ (m.log2 + 1) * 2 ^ e :=
        mul_le_mul_of_nonneg_right hdigits (zpow_nonneg (by norm_num) _)
    _ = 2 ^ ((m.log2 + 1 : ℕ) + e) := by rw [zpow_add₀ (by norm_num), zpow_natCast]
    _ ≤ 1 := zpow_le_one_of_nonpos₀ (by norm_num) (by omega)

end Fraction

/-- A power of a positive double is the power of its fraction, rounded. -/
theorem pow_eq_nearest {x : Float} {m : ℕ} {e : ℤ} {hm : 0 < m}
    (hx : x.toModel.unpack = .finite .positive m e hm) {n : ℤ} (hn : 0 < n) :
    pow x n = nearest false (Fraction.power ⟨m, e⟩ n.natAbs (n.natAbs.log2 + 1)).mantissa
      (Fraction.power ⟨m, e⟩ n.natAbs (n.natAbs.log2 + 1)).exponent := by
  have hdyadic : Decimal.Dyadic.ofFloat? x = some ⟨false, m, e⟩ := by
    rw [Decimal.Dyadic.ofFloat?_eq, hx]
    rfl
  have hnumber : x.isNaN = false := by
    change x.toModel.unpack.isNaN = false
    rw [hx]
    rfl
  have hsign : ¬ x < 0 := by
    rw [lt_iff_rank]
    rintro ⟨_, _, hrank, hzero, hlt⟩
    rw [hx] at hrank
    cases hrank
    cases hzero
    simp [Prod.Lex.toLex_lt_toLex] at hlt
  unfold pow
  rw [hdyadic, hnumber]
  simp only [beq_iff_eq, hn.ne', if_false, Bool.false_eq_true, hm.ne', hn.not_gt, hsign,
    decide_false, Bool.false_and]

/-- A power of a part is one, or below it. -/
theorem pow_eq_one_or_below {x : Float} {m : ℕ} {e : ℤ} {hm : 0 < m}
    (hx : x.toModel.unpack = .finite .positive m e hm) (hpart : e + m.log2 < 0) {n : ℤ}
    (hn : 0 < n) : pow x n = 1 ∨ Below 0 (pow x n).toModel.unpack := by
  rw [pow_eq_nearest hx hn]
  exact nearest_eq_one_or_below (Fraction.mantissa_le_of_value_le_one
    (Fraction.value_power_le_one (Fraction.value_le_one_of_log2 hpart) _ _))

end Projectivity.Double
