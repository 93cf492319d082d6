import Projectivity.Proofs.Scalar.Graded

/-!
# The range of doubles

A result that is rounded is finite exactly if the exact number is below the largest
finite double and half of its last place.  Powers of parts never get there, but the
quotient of two logarithms does: the logarithm of one minus a small part is that part,
which may be so small that the logarithm of another part is too large against it.
-/

set_option autoImplicit false

namespace Projectivity.Double

open Float.Model (UnpackedFloat Format)
open Float.Model.UnpackedFloat

/-- The least number that is rounded to infinity: half of a last place is missing to the power of
two above all finite doubles. -/
def limit : ℚ := 2 ^ (1024 : ℤ) - 2 ^ (970 : ℤ)

section Rounded

variable {x y : ℚ} {a : Float}

/-- Powers of two are rounded to themselves. -/
theorem rounds_two_zpow {k : ℤ} (hk : -1074 ≤ k) : Rounds (2 ^ k) (2 ^ k) := by
  refine rounds_self (e := max (k - 52) (-1074)) ⟨by omega, ?_, ?_⟩
    (r := 2 ^ (k - max (k - 52) (-1074)).toNat) ?_
  · exact zpow_lt_zpow_right₀ one_lt_two (by omega)
  · by_cases hleast : k - 52 ≤ -1074
    · exact Or.inl (by omega)
    · exact Or.inr (zpow_le_zpow_right₀ one_le_two (by omega))
  · rw [Int.cast_pow, Int.cast_ofNat, ← zpow_natCast, ← two_zpow_add]
    congr 1
    omega

/-- What is rounded is not moved across a number that is a double itself. -/
theorem IsRounded.le_number (ha : IsRounded x a) (hy : Rounds y y) (hle : y ≤ overflow)
    (h : y ≤ x) : y ≤ number a := by
  obtain ⟨v, hv, hav⟩ := ha.exists_rounds
  rw [hav]
  exact le_min (hy.mono hv h) hle

/-- A number up to one that a double has is rounded to at most this one. -/
theorem IsRounded.number_le_of_le (ha : IsRounded x a) (hy : Rounds y y) (h : x ≤ y) :
    number a ≤ y := by
  obtain ⟨v, hv, hav⟩ := ha.exists_rounds
  rw [hav]
  exact (min_le_left v overflow).trans (hv.mono hy h)

/-- The overflow as a mantissa and an exponent. -/
theorem overflow_eq : overflow = 2 ^ 53 * 2 ^ (971 : ℤ) := by
  have hsplit : (2 : ℚ) ^ ((53 : ℕ) + 971 : ℤ) = 2 ^ 53 * 2 ^ (971 : ℤ) := by
    rw [two_zpow_add, zpow_natCast]
  exact hsplit

/-- The limit as a mantissa, with a half, and an exponent. -/
theorem limit_eq : limit = (2 ^ 53 - 1 / 2) * 2 ^ (971 : ℤ) := by
  have hhalf : (2 : ℚ) ^ (970 : ℤ) = 1 / 2 * 2 ^ (971 : ℤ) := by
    rw [show (970 : ℤ) = 971 - 1 by norm_num, zpow_sub_one₀ two_ne_zero, one_div, mul_comm]
  rw [limit, hhalf, sub_mul, ← overflow_eq, overflow]

/-- Some numbers below the overflow are rounded to infinity. -/
theorem limit_lt_overflow : limit < overflow := sub_lt_self _ (two_zpow_pos 970)

/-- Half of the overflow is below the limit. -/
theorem two_zpow_le_limit : (2 : ℚ) ^ (1023 : ℤ) ≤ limit := by
  have hsplit : (2 : ℚ) ^ ((52 : ℕ) + 971 : ℤ) = 2 ^ 52 * 2 ^ (971 : ℤ) := by
    rw [two_zpow_add, zpow_natCast]
  rw [limit_eq]
  exact hsplit.trans_le (mul_le_mul_of_nonneg_right (by norm_num) (two_zpow_pos 971).le)

/-- The limit is positive. -/
theorem limit_pos : 0 < limit := (two_zpow_pos 1023).trans_le two_zpow_le_limit

/-- The limit is far above the reciprocals of numbers that are not next to zero. -/
theorem lt_limit_mul (hy : 2 ^ (-1012 : ℤ) ≤ y) : 2 ^ 10 < limit * y := by
  calc (2 : ℚ) ^ 10 < 2 ^ (11 : ℤ) := by norm_num
    _ = 2 ^ (1023 : ℤ) * 2 ^ (-1012 : ℤ) := by rw [← two_zpow_add]; norm_num
    _ ≤ limit * y := mul_le_mul two_zpow_le_limit hy (two_zpow_pos _).le limit_pos.le

/-- The limit is rounded to the overflow. -/
theorem rounds_limit : Rounds limit overflow := by
  refine ⟨971, 2 ^ 53, ⟨by norm_num, limit_lt_overflow, Or.inr two_zpow_le_limit⟩, ?_, ?_⟩
  · rw [limit_eq, mul_div_cancel_right₀ _ (two_zpow_pos 971).ne']
    exact isNearest_of_even (by norm_num) (by decide)
  · rw [overflow_eq, Int.cast_pow, Int.cast_ofNat]

/-- A rounded number is finite exactly if it is below the limit. -/
theorem IsRounded.isFinite_iff (ha : IsRounded x a) (hx : 0 ≤ x) :
    a.isFinite = true ↔ x < limit := by
  rw [isFinite_iff_number ha.isNaN_eq, abs_of_nonneg (ha.number_nonneg hx)]
  obtain ⟨v, hv, hav⟩ := ha.exists_rounds
  rw [hav, min_lt_iff, or_iff_left (lt_irrefl overflow)]
  constructor
  · intro hlt
    by_contra hlarge
    exact absurd (rounds_limit.mono hv (not_lt.mp hlarge)) (not_le.mpr hlt)
  · intro hlt
    obtain ⟨e, r, he, hr, rfl⟩ := hv
    have hplace : e ≤ 971 := by
      by_contra hlarge
      have hlead : overflow ≤ x := (zpow_le_zpow_right₀ one_le_two (by omega)).trans
        (he.le.resolve_left (by omega))
      exact absurd (hlt.trans limit_lt_overflow) (not_lt.mpr hlead)
    rcases hplace.eq_or_lt with rfl | hbelow
    · -- At the last place of the largest doubles the number is nearer to one of them.
      have hquotient : x / 2 ^ (971 : ℤ) < 2 ^ 53 - 1 / 2 := by
        rwa [div_lt_iff₀ (two_zpow_pos 971), ← limit_eq]
      have hdigits : (r : ℚ) < 2 ^ 53 := by
        have hhalf := neg_le_of_abs_le hr.1
        linarith
      rw [overflow_eq]
      exact mul_lt_mul_of_pos_right hdigits (two_zpow_pos 971)
    · have hdigits : (r : ℚ) ≤ 2 ^ 53 := by exact_mod_cast he.nearest_le hr
      rw [overflow_eq]
      exact mul_lt_mul' hdigits (zpow_lt_zpow_right₀ one_lt_two hbelow) (two_zpow_pos e).le
        (by norm_num)

/-- From the limit on there is only infinity. -/
theorem IsRounded.isAbove (ha : IsRounded x a) (hx : 0 ≤ x) (hlarge : limit ≤ x) :
    Scalar.isAbove a = true := by
  have hinfinite : ¬ a.toModel.unpack.isFinite = true :=
    (ha.isFinite_iff hx).not.mpr (not_lt.mpr hlarge)
  have hnonneg : 0 ≤ a := by
    rw [le_iff_number rfl ha.isNaN_eq, number_zero]
    exact ha.number_nonneg hx
  rw [zero_le_iff] at hnonneg
  have htop : infinity.toModel.unpack = .infinity .positive := rfl
  change a.toModel.unpack.beq infinity.toModel.unpack = true
  rw [htop]
  generalize a.toModel.unpack = u at hinfinite hnonneg ⊢
  rcases u with (_ | _) | _ | s | ⟨_ | _, m, e, hm⟩
  case infinity.positive => rfl
  case zero => exact absurd rfl hinfinite
  case finite.positive => exact absurd rfl hinfinite
  all_goals exact hnonneg.elim

end Rounded

section Parts

variable {x : Float}

/-- One is rounded to one. -/
theorem isRounded_one : IsRounded 1 1 :=
  number_one ▸ isRounded_number rfl ((zero_le_iff 1).mpr trivial)

/-- A double below one is below it by half a last place at least. -/
theorem number_le_of_lt_one (hpos : 0 < x) (hlt : x < 1) : number x ≤ 1 - 2 ^ (-53 : ℤ) := by
  obtain ⟨m, k, hm, hunpack, hmk, -, hnumber⟩ := exists_unpack_of_part hpos hlt
  have hpart : m < 2 ^ k := (Nat.log2_lt hm.ne').mp hmk
  have hdigits : m < 2 ^ 53 := (canonical_of_unpack hunpack).1
  rw [hnumber, div_le_iff₀ (by positivity)]
  rcases Nat.lt_or_ge 53 k with hlarge | hsmall
  · -- The digits do not reach the first place behind the point.
    calc (m : ℚ) ≤ 2 ^ 53 := by exact_mod_cast hdigits.le
      _ ≤ (1 - 2 ^ (-53 : ℤ)) * 2 ^ 54 := by norm_num
      _ ≤ (1 - 2 ^ (-53 : ℤ)) * 2 ^ k :=
          mul_le_mul_of_nonneg_left (pow_le_pow_right₀ one_le_two hlarge) (by norm_num)
  · have hunit : (2 : ℚ) ^ (-53 : ℤ) * 2 ^ k ≤ 1 := by
      rw [← zpow_natCast, ← two_zpow_add]
      exact zpow_le_one_of_nonpos₀ one_le_two (by omega)
    have hbound : (m : ℚ) + 1 ≤ 2 ^ k := by exact_mod_cast hpart
    rw [sub_mul, one_mul]
    linarith

/-- What is not negative and not positive is zero. -/
theorem exists_unpack_zero (hnonneg : 0 ≤ x) (hpos : ¬ 0 < x) : ∃ s, x.toModel.unpack = .zero s := by
  rw [zero_le_iff] at hnonneg
  rw [zero_lt_iff] at hpos
  generalize x.toModel.unpack = u at hnonneg hpos ⊢
  rcases u with (_ | _) | _ | s | ⟨_ | _, m, e, hm⟩
  case zero => exact ⟨s, rfl⟩
  case infinity.positive => exact absurd trivial hpos
  case finite.positive => exact absurd trivial hpos
  all_goals exact hnonneg.elim

/-- One minus a part is rounded once. -/
theorem isRounded_one_sub (h0 : 0 ≤ x) (h1 : x < 1) : IsRounded (1 - number x) (1 - x) := by
  by_cases hpos : 0 < x
  · obtain ⟨m, k, hm, hunpack, -⟩ := exists_unpack_of_part hpos h1
    have hrounded := isRounded_sub unpack_one hunpack ((lt_iff_number (isNaN_of_lt h1).1 rfl).mp h1)
    rwa [number_one] at hrounded
  · -- Zero is taken off without rounding.
    obtain ⟨s, hs⟩ := exists_unpack_zero h0 hpos
    have hnumber : number x = 0 := by rw [number, hs, value]
    have hsame : (1 - x).toModel.unpack = (1 : Float).toModel.unpack := by
      change unpack Format.binary64 (pack Format.binary64
        (sub Format.binary64 (1 : Float).toModel.unpack x.toModel.unpack)) = _
      rw [hs, unpack_one]
      exact unpack_pack (canonical_of_unpack unpack_one)
    rw [hnumber, sub_zero]
    refine ⟨?_, ?_⟩
    · change (1 - x).toModel.unpack.isNaN = false
      rw [hsame]
      rfl
    · rw [number, hsame]
      exact isRounded_one.exists_rounds

/-- What is left of one without a part is at least the place of the last digit of a part next to
one. -/
theorem one_sub_bounds (h0 : 0 ≤ x) (h1 : x < 1) : (1 - x).isFinite = true ∧
    2 ^ (-53 : ℤ) ≤ number (1 - x) ∧ number (1 - x) ≤ 1 := by
  have hnonneg : 0 ≤ number x := by
    have hnumber := (le_iff_number rfl (isNaN_of_lt h1).1).mp h0
    rwa [number_zero] at hnumber
  have hle : number x ≤ 1 - 2 ^ (-53 : ℤ) := by
    rcases hnonneg.eq_or_lt with hzero | hpos
    · rw [← hzero]
      norm_num
    · refine number_le_of_lt_one ?_ h1
      rwa [lt_iff_number rfl (isNaN_of_lt h1).1, number_zero]
  have hrounded := isRounded_one_sub h0 h1
  have hone : (1 : ℚ) < limit := (isRounded_one.isFinite_iff zero_le_one).mp rfl
  refine ⟨?_, ?_, ?_⟩
  · rw [hrounded.isFinite_iff (by linarith [two_zpow_pos (-53)])]
    linarith
  · refine hrounded.le_number (rounds_two_zpow (by norm_num)) ?_ (by linarith)
    exact zpow_le_zpow_right₀ one_le_two (by norm_num)
  · exact hrounded.number_le_of_le (by simpa using rounds_two_zpow (k := 0) (by norm_num))
      (by linarith)

variable {m : ℕ} {e n : ℤ} {hm : 0 < m}

/-- A power is the rounded fraction of the multiplied digits. -/
theorem isRounded_pow (hx : x.toModel.unpack = .finite .positive m e hm) (hn : 0 < n) :
    IsRounded (Fraction.power ⟨m, e⟩ n.natAbs (n.natAbs.log2 + 1)).value (pow x n) := by
  rw [pow_eq_nearest hx hn]
  exact isRounded_nearest _ _

/-- A power of a number that is at most one is a number between zero and one. -/
theorem pow_bounds (hx : x.toModel.unpack = .finite .positive m e hm) (hle : number x ≤ 1)
    (hn : 0 < n) : (pow x n).isFinite = true ∧ 0 ≤ number (pow x n) ∧ number (pow x n) ≤ 1 := by
  have hrounded := isRounded_pow hx hn
  have hbase : (⟨m, e⟩ : Fraction).value ≤ 1 := by rwa [number_of_unpack hx] at hle
  have hvalue := Fraction.value_power_le_one hbase n.natAbs (n.natAbs.log2 + 1)
  have hnonneg := Fraction.value_nonneg (Fraction.power ⟨m, e⟩ n.natAbs (n.natAbs.log2 + 1))
  refine ⟨?_, hrounded.number_nonneg hnonneg, ?_⟩
  · rw [hrounded.isFinite_iff hnonneg]
    exact hvalue.trans_lt ((isRounded_one.isFinite_iff zero_le_one).mp rfl)
  · exact hrounded.number_le_of_le (by simpa using rounds_two_zpow (k := 0) (by norm_num)) hvalue

/-- The powers of half a last place of one with exponents below twenty are exact. -/
theorem power_last_place : ∀ n : Fin 20, (Fraction.power ⟨1, -53⟩ n (n.val.log2 + 1)).mantissa = 1 ∧
    (Fraction.power ⟨1, -53⟩ n (n.val.log2 + 1)).exponent = -53 * n.val := by
  decide +kernel

/-- The powers up to the nineteenth of the part next to zero that one minus a part can be are far from
the end of the range. -/
theorem le_number_pow (hx : x.toModel.unpack = .finite .positive m e hm)
    (hle : 2 ^ (-53 : ℤ) ≤ number x) (hn : 0 < n) (hsmall : n ≤ 19) :
    2 ^ (-1007 : ℤ) ≤ number (pow x n) := by
  have hvalue : (⟨1, -53⟩ : Fraction).value ≤ (⟨m, e⟩ : Fraction).value := by
    rw [number_of_unpack hx] at hle
    rwa [Fraction.value, Nat.cast_one, one_mul]
  have hpower := Fraction.value_power_mono hvalue n.natAbs (n.natAbs.log2 + 1)
  obtain ⟨hmantissa, hexponent⟩ := power_last_place ⟨n.natAbs, by omega⟩
  refine (isRounded_pow hx hn).le_number (rounds_two_zpow (by norm_num))
    (zpow_le_zpow_right₀ one_le_two (by norm_num)) (le_trans ?_ hpower)
  rw [Fraction.value, hmantissa, hexponent, Nat.cast_one, one_mul]
  exact zpow_le_zpow_right₀ one_le_two (by simp only; omega)

end Parts

section Quotients

variable {x p good : Float}

/-- A double below a power of two has a number below it. -/
theorem number_lt_of_below {n : ℤ} (h : Below n x.toModel.unpack) : |number x| < 2 ^ n := by
  unfold number
  generalize x.toModel.unpack = u at h ⊢
  rcases u with _ | _ | s | ⟨s, m, e, hm⟩
  case zero => simpa [value] using two_zpow_pos n
  case finite =>
    have hlead : e + (m.log2 + 1 : ℕ) ≤ n := by
      have hbelow : e + m.log2 < n := h
      push_cast
      omega
    have habs : |value (.finite s m e hm)| = m * 2 ^ e := by
      have hnonneg : (0 : ℚ) ≤ m * 2 ^ e := mul_nonneg (Nat.cast_nonneg m) (two_zpow_pos e).le
      cases s with
      | positive => exact abs_of_nonneg hnonneg
      | negative => exact (abs_neg _).trans (abs_of_nonneg hnonneg)
    rw [habs]
    exact (mul_two_zpow_lt Nat.lt_log2_self e).trans_le (zpow_le_zpow_right₀ one_le_two hlead)
  all_goals exact h.elim

/-- What the logarithm of one minus a part lacks of zero is the part itself if that is tiny. -/
theorem number_shortfall {m k : ℕ} {hm : 0 < m} {a : Float}
    (hx : x.toModel.unpack = .finite .positive m (-(k : ℤ)) hm) (hpart : m.log2 < k)
    (ha : IsRounded (shortfall m k) a) :
    number a = number x ∨ 2 ^ (-60 : ℤ) ≤ number a ∧ 2 ^ (-60 : ℤ) ≤ number x := by
  have hnumber : number x = m / 2 ^ k := by
    rw [number_of_unpack hx, zpow_neg, zpow_natCast, div_eq_mul_inv]
  by_cases htiny : -(k : ℤ) + m.log2 < -60
  · rw [shortfall, if_pos htiny, ← hnumber] at ha
    have hself : IsRounded (number x) x := by
      refine isRounded_number ?_ ((zero_le_iff x).mpr (by rw [hx]; trivial))
      change x.toModel.unpack.isFinite = true
      rw [hx]
      rfl
    exact Or.inl (le_antisymm (ha.number_le hself le_rfl) (hself.number_le ha le_rfl))
  · have hshortfall := le_shortfall hm ((Nat.log2_lt hm.ne').mp hpart) htiny
    have hpower := le_of_not_tiny hm htiny
    have hplace : (1 : ℚ) / 2 ^ 60 = 2 ^ (-60 : ℤ) := by norm_num
    rw [hplace] at hshortfall hpower
    refine Or.inr ⟨ha.le_number (rounds_two_zpow (by norm_num)) ?_ hshortfall, hnumber ▸ hpower⟩
    exact zpow_le_zpow_right₀ one_le_two (by norm_num)

/-- The size of the logarithm of one minus a part, which is that of the part if it is tiny. -/
theorem exists_log1p_neg_number (hpos : 0 < x) (hlt : x < 1) :
    ∃ a, log1p (-x) = -a ∧ 0 < a ∧ a.isFinite = true ∧ number a < 2 ^ 10 ∧
      (number a = number x ∨ 2 ^ (-60 : ℤ) ≤ number a ∧ 2 ^ (-60 : ℤ) ≤ number x) := by
  obtain ⟨a, -, hlog, -, ha, -⟩ :=
    exists_log1p_neg_le hpos hlt hpos hlt ((le_refl_iff x).mpr (isNaN_of_lt hpos).2)
  obtain ⟨m, k, hm, hunpack, hmk, -⟩ := exists_unpack_of_part hpos hlt
  have hsize : |number a| < 2 ^ (10 : ℤ) := by
    have hbelow := number_lt_of_below (below_log1p_neg hunpack (by omega))
    rwa [hlog, number_neg, abs_neg] at hbelow
  have htop : (2 : ℚ) ^ (10 : ℤ) < overflow := zpow_lt_zpow_right₀ one_lt_two (by norm_num)
  refine ⟨a, hlog, ha, ?_, ?_, ?_⟩
  · rw [isFinite_iff_number (isNaN_of_lt ha).2]
    exact hsize.trans htop
  · exact_mod_cast lt_of_abs_lt hsize
  · obtain ⟨b, hlog', hrounded⟩ := exists_log1p_neg hunpack hmk
    have hsame : number b = number a := by
      have hneg := congrArg number (hlog'.symm.trans hlog)
      rwa [number_neg, number_neg, neg_inj] at hneg
    rw [← hsame]
    exact number_shortfall hunpack hmk hrounded

/-- The logarithm of one minus a part is far from the overflow. -/
theorem neg_log1p_neg_lt (hpos : 0 < p) (hlt : p < 1) : -number (log1p (-p)) < 2 ^ 10 := by
  obtain ⟨a, hlog, -, -, hsmall, -⟩ := exists_log1p_neg_number hpos hlt
  rwa [hlog, number_neg, neg_neg]

/-- The quotient of the logarithms of one minus two parts is rounded, and it is beyond the range of
doubles exactly if the first logarithm is too large against the second part. -/
theorem exists_log_quotient (hpos : 0 < p) (hlt : p < 1) (hgood : 0 < good) (hgood1 : good < 1) :
    ∃ q : ℚ, 0 ≤ q ∧ IsRounded q (log1p (-p) / log1p (-good)) ∧
      (limit ≤ q ↔ limit * number good ≤ -number (log1p (-p))) := by
  obtain ⟨a, hlog, ha, hafinite, hasmall, -⟩ := exists_log1p_neg_number hpos hlt
  obtain ⟨d, hlog', hd, hdfinite, -, hsize⟩ := exists_log1p_neg_number hgood hgood1
  have hdpos : 0 < number d := by
    rwa [lt_iff_number rfl (isNaN_of_lt hd).2, number_zero] at hd
  have hapos : 0 < number a := by
    rwa [lt_iff_number rfl (isNaN_of_lt ha).2, number_zero] at ha
  refine ⟨number a / number d, (div_pos hapos hdpos).le, ?_, ?_⟩
  · rw [hlog, hlog']
    exact isRounded_neg_div_neg ha hafinite hd hdfinite
  rw [le_div_iff₀ hdpos, hlog, number_neg, neg_neg]
  rcases hsize with hsame | ⟨hlarge, hlarge'⟩
  · rw [hsame]
  · -- Neither of the two products is as small as the logarithm.
    have hplace : (2 : ℚ) ^ (-1012 : ℤ) ≤ 2 ^ (-60 : ℤ) :=
      zpow_le_zpow_right₀ one_le_two (by norm_num)
    have hfar : ∀ {y : ℚ}, 2 ^ (-60 : ℤ) ≤ y → ¬ limit * y ≤ number a := fun hy =>
      not_le.mpr (hasmall.trans (lt_limit_mul (hplace.trans hy)))
    exact iff_of_false (hfar hlarge) (hfar hlarge')

end Quotients

end Projectivity.Double
