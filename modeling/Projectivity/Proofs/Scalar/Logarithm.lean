import Projectivity.Proofs.Scalar.Value

/-!
# The magnitude of logarithms

The series of the inverse hyperbolic tangent is summed over terms that do not grow, and
so the logarithm of one minus a part is bounded by the number of binary digits of the
part.  Near zero it is as large as the part itself.
-/

set_option autoImplicit false

namespace Projectivity.Double

open Float.Model (UnpackedFloat Format)
open Float.Model.UnpackedFloat

namespace Logarithm

/-- A series is bounded by the number of its terms. -/
theorem series_le {square : ℕ} (hsquare : square ≤ Nat.pow 2 places) (count power k : ℕ) :
    series square count power k ≤ count * power := by
  induction count generalizing power k with
  | zero => exact Nat.zero_le _
  | succ count ih =>
    have hpower : power * square / Nat.pow 2 places ≤ power :=
      Nat.div_le_of_le_mul (by rw [mul_comm]; exact Nat.mul_le_mul_right power hsquare)
    calc series square (count + 1) power k
        ≤ power + count * (power * square / Nat.pow 2 places) :=
          Nat.add_le_add (Nat.div_le_self power k) (ih _ _)
      _ ≤ power + count * power := Nat.add_le_add_left (Nat.mul_le_mul_left count hpower) power
      _ = (count + 1) * power := by rw [Nat.succ_mul, Nat.add_comm]

/-- The inverse hyperbolic tangent of a proportion is bounded. -/
theorem twiceArtanh_le {num den : ℕ} (h : num ≤ den) :
    twiceArtanh num den ≤ 128 * Nat.pow 2 places := by
  have hpart : num * Nat.pow 2 places / den ≤ Nat.pow 2 places :=
    Nat.div_le_of_le_mul (Nat.mul_le_mul_right _ h)
  have hsquare : num * Nat.pow 2 places / den * (num * Nat.pow 2 places / den) /
      Nat.pow 2 places ≤ Nat.pow 2 places :=
    Nat.div_le_of_le_mul (Nat.mul_le_mul hpart hpart)
  have hseries := series_le hsquare 64 (num * Nat.pow 2 places / den) 1
  unfold twiceArtanh
  simp only
  omega

/-- The logarithm of two is below one. -/
theorem two_le : two ≤ Nat.pow 2 places := by decide +kernel

/-- A multiple of the logarithm of two and the rest next to it. -/
theorem natAbs_multiple_le (k : ℤ) (num den : ℕ) :
    (k * two + if den ≤ num then (twiceArtanh (num - den) (num + den) : ℤ)
      else -(twiceArtanh (den - num) (num + den) : ℤ)).natAbs ≤
      (k.natAbs + 128) * Nat.pow 2 places := by
  have hmultiple : (k * two).natAbs ≤ k.natAbs * Nat.pow 2 places := by
    rw [Int.natAbs_mul, Int.natAbs_natCast]
    exact Nat.mul_le_mul_left _ two_le
  have hrest : (if den ≤ num then (twiceArtanh (num - den) (num + den) : ℤ)
      else -(twiceArtanh (den - num) (num + den) : ℤ)).natAbs ≤ 128 * Nat.pow 2 places := by
    split
    · rw [Int.natAbs_natCast]
      exact twiceArtanh_le (by omega)
    · rw [Int.natAbs_neg, Int.natAbs_natCast]
      exact twiceArtanh_le (by omega)
  rw [Nat.add_mul]
  exact (Int.natAbs_add_le _ _).trans (Nat.add_le_add hmultiple hrest)

/-- A logarithm is bounded by the difference of the leading digits. -/
theorem natAbs_ofFraction_le (num den : ℕ) :
    (ofFraction num den).natAbs ≤
      (((num.log2 : ℤ) - den.log2).natAbs + 129) * Nat.pow 2 places := by
  have hstep : ∀ (k : ℤ) (a b : ℕ), k.natAbs ≤ ((num.log2 : ℤ) - den.log2).natAbs + 1 →
      (k * two + if b ≤ a then (twiceArtanh (a - b) (a + b) : ℤ)
        else -(twiceArtanh (b - a) (a + b) : ℤ)).natAbs ≤
        (((num.log2 : ℤ) - den.log2).natAbs + 129) * Nat.pow 2 places := by
    intro k a b hk
    exact (natAbs_multiple_le k a b).trans (Nat.mul_le_mul_right _ (by omega))
  unfold ofFraction
  simp only
  generalize (num.log2 : ℤ) - den.log2 = e at hstep ⊢
  split
  · split
    · exact hstep _ _ _ (by omega)
    · exact hstep _ _ _ (by omega)
  · split
    · exact hstep _ _ _ (by omega)
    · exact hstep _ _ _ (by omega)

section Order

/-- A series grows with what it is formed of. -/
theorem series_mono {square square' power power' : ℕ} (hsquare : square ≤ square')
    (hpower : power ≤ power') (count k : ℕ) :
    series square count power k ≤ series square' count power' k := by
  induction count generalizing power power' k with
  | zero => exact le_rfl
  | succ count ih =>
    exact Nat.add_le_add (Nat.div_le_div_right hpower)
      (ih (Nat.div_le_div_right (Nat.mul_le_mul hpower hsquare)) (k + 2))

/-- The inverse hyperbolic tangent of a larger fraction is not smaller. -/
theorem twiceArtanh_mono {num den num' den' : ℕ} (hden : 0 < den) (hden' : 0 < den')
    (h : num * den' ≤ num' * den) : twiceArtanh num den ≤ twiceArtanh num' den' := by
  have hpart : num * Nat.pow 2 places / den ≤ num' * Nat.pow 2 places / den' := by
    rw [Nat.le_div_iff_mul_le hden']
    refine Nat.le_of_mul_le_mul_right ?_ hden
    calc num * Nat.pow 2 places / den * den' * den
        = num * Nat.pow 2 places / den * den * den' := by ring
      _ ≤ num * Nat.pow 2 places * den' := Nat.mul_le_mul_right _ (Nat.div_mul_le_self _ _)
      _ = num * den' * Nat.pow 2 places := by ring
      _ ≤ num' * den * Nat.pow 2 places := Nat.mul_le_mul_right _ h
      _ = num' * Nat.pow 2 places * den := by ring
  exact Nat.mul_le_mul_left 2 (series_mono (Nat.div_le_div_right (Nat.mul_le_mul hpart hpart))
    hpart 64 1)

/-- The logarithm of a fraction near one. -/
def rest (a b : ℕ) : ℤ :=
  if b ≤ a then (twiceArtanh (a - b) (a + b) : ℕ) else -(twiceArtanh (b - a) (a + b) : ℕ)

/-- The logarithm of a fraction near one grows with the fraction. -/
theorem rest_mono {a b c d : ℕ} (hb : 0 < b) (hd : 0 < d) (h : a * d ≤ c * b) :
    rest a b ≤ rest c d := by
  unfold rest
  split_ifs with hab hcd hcd
  · refine Int.ofNat_le.mpr (twiceArtanh_mono (by omega) (by omega) ?_)
    zify [hab, hcd] at h ⊢
    nlinarith
  · -- One fraction is not below one, and the other one is.
    exact absurd ((Nat.mul_le_mul_right d hab).trans h)
      (not_le.mpr (by rw [mul_comm b d]; exact Nat.mul_lt_mul_of_pos_right (not_le.mp hcd) hb))
  · have := Int.natCast_nonneg (twiceArtanh (b - a) (a + b))
    have := Int.natCast_nonneg (twiceArtanh (c - d) (c + d))
    omega
  · refine neg_le_neg (Int.ofNat_le.mpr (twiceArtanh_mono (by omega) (by omega) ?_))
    zify [(not_le.mp hab).le, (not_le.mp hcd).le] at h ⊢
    nlinarith

/-- A fraction over a power of two, as a quotient of natural numbers. -/
theorem scaled_eq (num : ℕ) {den : ℕ} (hden : 0 < den) (k : ℤ) :
    (num : ℚ) / den = (num * Nat.pow 2 (-k).toNat : ℕ) / (den * Nat.pow 2 k.toNat : ℕ) * 2 ^ k := by
  have hpow : ∀ n, Nat.pow 2 n = 2 ^ n := fun n => rfl
  have hsplit : (2 : ℚ) ^ (-k).toNat * 2 ^ k = 2 ^ k.toNat := by
    rw [← zpow_natCast, ← zpow_natCast, ← zpow_add₀ two_ne_zero]
    congr 1
    omega
  have hpos : (0 : ℚ) < den := by exact_mod_cast hden
  rw [hpow, hpow]
  push_cast
  rw [div_mul_eq_mul_div, mul_assoc, hsplit]
  field_simp

/-- The lengths of a numerator and a denominator give the length of the fraction, up to one. -/
theorem two_zpow_le_fraction {num den : ℕ} (hnum : 0 < num) (hden : 0 < den) :
    (2 : ℚ) ^ ((num.log2 : ℤ) - den.log2 - 1) ≤ num / den ∧
      (num : ℚ) / den < 2 ^ ((num.log2 : ℤ) - den.log2 + 1) := by
  have hpos : (0 : ℚ) < den := by exact_mod_cast hden
  have hnumlow := two_zpow_le_mul (Nat.log2_self_le hnum.ne') 0
  have hnumhigh := mul_two_zpow_lt (Nat.lt_log2_self (n := num)) 0
  have hdenlow := two_zpow_le_mul (Nat.log2_self_le hden.ne') 0
  have hdenhigh := mul_two_zpow_lt (Nat.lt_log2_self (n := den)) 0
  simp only [zpow_zero, mul_one, zero_add, Nat.cast_add, Nat.cast_one]
    at hnumlow hnumhigh hdenlow hdenhigh
  obtain ⟨e, he⟩ : ∃ e : ℤ, e = (num.log2 : ℤ) - den.log2 := ⟨_, rfl⟩
  rw [← he, le_div_iff₀ hpos, div_lt_iff₀ hpos]
  constructor
  · calc (2 : ℚ) ^ (e - 1) * den ≤ 2 ^ (e - 1) * 2 ^ ((den.log2 : ℤ) + 1) :=
          mul_le_mul_of_nonneg_left hdenhigh.le (two_zpow_pos _).le
      _ = 2 ^ (num.log2 : ℤ) := by
          rw [← two_zpow_add]
          congr 1
          omega
      _ ≤ num := hnumlow
  · calc (num : ℚ) < 2 ^ ((num.log2 : ℤ) + 1) := hnumhigh
      _ = 2 ^ (e + 1) * 2 ^ (den.log2 : ℤ) := by
          rw [← two_zpow_add]
          congr 1
          omega
      _ ≤ 2 ^ (e + 1) * den := mul_le_mul_of_nonneg_left hdenlow (two_zpow_pos _).le

/-- A fraction lies between a power of two and the next one. -/
theorem exists_leading {num den : ℕ} (hnum : 0 < num) (hden : 0 < den) :
    ∃ k : ℤ, k = (let e : ℤ := (num.log2 : ℤ) - den.log2
        if 2 * (den * Nat.pow 2 e.toNat) ≤ 2 * (num * Nat.pow 2 (-e).toNat) then e else e - 1) ∧
      (2 : ℚ) ^ k ≤ num / den ∧ (num : ℚ) / den < 2 ^ (k + 1) := by
  obtain ⟨hlow, hhigh⟩ := two_zpow_le_fraction hnum hden
  generalize (num.log2 : ℤ) - den.log2 = e at hlow hhigh ⊢
  have hscaled := scaled_eq num hden e
  have hcast : (0 : ℚ) < (den * Nat.pow 2 e.toNat : ℕ) := by
    exact_mod_cast Nat.mul_pos hden (Nat.two_pow_pos _)
  refine ⟨_, rfl, ?_⟩
  simp only
  split_ifs with hwhole
  · refine ⟨?_, hhigh⟩
    rw [hscaled, le_mul_iff_one_le_left (two_zpow_pos e), one_le_div hcast]
    exact_mod_cast Nat.le_of_mul_le_mul_left hwhole two_pos
  · refine ⟨hlow, ?_⟩
    rw [sub_add_cancel, hscaled, mul_lt_iff_lt_one_left (two_zpow_pos e), div_lt_one hcast]
    exact_mod_cast (by omega : num * Nat.pow 2 (-e).toNat < den * Nat.pow 2 e.toNat)

/-- The logarithm of a fraction is a multiple of that of two and the one of a fraction between
`3 / 4` and `3 / 2`. -/
theorem ofFraction_eq {num den : ℕ} (hnum : 0 < num) (hden : 0 < den) :
    ∃ (k : ℤ) (a b : ℕ), 0 < b ∧ (num : ℚ) / den = a / b * 2 ^ k ∧ 3 * b < 4 * a ∧
      2 * a ≤ 3 * b ∧ ofFraction num den = k * two + rest a b := by
  obtain ⟨k, hk, hlow, hhigh⟩ := exists_leading hnum hden
  have hscaled := scaled_eq num hden k
  have hpos : 0 < den * Nat.pow 2 k.toNat := Nat.mul_pos hden (Nat.two_pow_pos _)
  unfold ofFraction
  simp only at hk ⊢
  rw [← hk]
  generalize num * Nat.pow 2 (-k).toNat = a at hscaled ⊢
  generalize den * Nat.pow 2 k.toNat = b at hscaled hpos ⊢
  have hb : (0 : ℚ) < b := by exact_mod_cast hpos
  rw [hscaled, le_mul_iff_one_le_left (two_zpow_pos k), one_le_div hb] at hlow
  rw [hscaled, zpow_add₀ two_ne_zero, zpow_one, mul_comm (2 ^ k),
    mul_lt_mul_iff_left₀ (two_zpow_pos k), div_lt_iff₀ hb] at hhigh
  have hab : b ≤ a := by exact_mod_cast hlow
  have hba : a < 2 * b := by exact_mod_cast hhigh
  by_cases hlarge : 3 * b < 2 * a
  · rw [if_pos hlarge]
    refine ⟨k + 1, a, 2 * b, by omega, ?_, by omega, by omega, rfl⟩
    rw [hscaled, zpow_add₀ two_ne_zero]
    push_cast
    field_simp
  · rw [if_neg hlarge]
    exact ⟨k, a, b, hpos, hscaled, by omega, by omega, rfl⟩

/-- Between two multiples of the logarithm of two there is room for the rests. -/
theorem rest_step : rest 3 2 ≤ two + rest 3 4 := by decide +kernel

/-- Logarithms keep the order of fractions. -/
theorem ofFraction_mono {num den num' den' : ℕ} (hnum : 0 < num) (hden : 0 < den)
    (hnum' : 0 < num') (hden' : 0 < den') (h : (num : ℚ) / den ≤ num' / den') :
    ofFraction num den ≤ ofFraction num' den' := by
  obtain ⟨k, a, b, hb, hab, halow, hahigh, heq⟩ := ofFraction_eq hnum hden
  obtain ⟨l, c, d, hd, hcd, hclow, hchigh, heq'⟩ := ofFraction_eq hnum' hden'
  have hbq : (0 : ℚ) < b := by exact_mod_cast hb
  have hdq : (0 : ℚ) < d := by exact_mod_cast hd
  rw [hab, hcd] at h
  rw [heq, heq']
  rcases lt_trichotomy k l with hlt | rfl | hgt
  · have hlow : rest a b ≤ rest 3 2 := rest_mono hb two_pos (by omega)
    have hhigh : rest 3 4 ≤ rest c d := rest_mono (by norm_num) hd (by omega)
    have hstep := rest_step
    have hmultiple : (k + 1) * (two : ℤ) ≤ l * two :=
      mul_le_mul_of_nonneg_right (by omega) (Int.natCast_nonneg two)
    rw [add_mul, one_mul] at hmultiple
    omega
  · have hfraction := le_of_mul_le_mul_right h (two_zpow_pos k)
    rw [div_le_div_iff₀ hbq hdq] at hfraction
    have hrest := rest_mono hb hd (by exact_mod_cast hfraction)
    omega
  · -- A fraction with the larger multiple would be the larger one.
    exfalso
    have hlow : (3 : ℚ) / 4 < a / b := by
      rw [div_lt_div_iff₀ (by norm_num) hbq]
      exact_mod_cast (by omega : 3 * b < a * 4)
    have hhigh : (c : ℚ) / d ≤ 3 / 2 := by
      rw [div_le_div_iff₀ hdq (by norm_num)]
      exact_mod_cast (by omega : c * 2 ≤ 3 * d)
    have hpow : (2 : ℚ) * 2 ^ l ≤ 2 ^ k := by
      rw [← zpow_one_add₀ two_ne_zero]
      exact zpow_le_zpow_right₀ one_le_two (by omega)
    have hl := two_zpow_pos l
    nlinarith [mul_lt_mul_of_pos_right hlow (two_zpow_pos k),
      mul_le_mul_of_nonneg_right hhigh hl.le]

end Order

end Logarithm

/-- The logarithm of one minus a part is the negated part, if the part is tiny, or else the double
nearest to the logarithm of a fraction. -/
theorem log1p_neg_eq {x : Float} {m k : ℕ} {hm : 0 < m}
    (hx : x.toModel.unpack = .finite .positive m (-k) hm) (hpart : m.log2 < k) :
    log1p (-x) = if -(k : ℤ) + m.log2 < -60 then -x
      else nearest (decide (Logarithm.ofFraction (2 ^ k - m) (2 ^ k) < 0))
        (Logarithm.ofFraction (2 ^ k - m) (2 ^ k)).natAbs (-192) := by
  have hdyadic : Decimal.Dyadic.ofFloat? (-x) = some ⟨true, m, -k⟩ := by
    rw [Decimal.Dyadic.ofFloat?_eq, unpack_neg, hx]
    rfl
  have hbelow : m < 2 ^ k := (Nat.log2_lt hm.ne').mp hpart
  have hden : Decimal.Dyadic.denominator ⟨true, m, -k⟩ = 2 ^ k := by
    rw [Decimal.Dyadic.denominator, neg_neg, Int.toNat_natCast]
    rfl
  have hnum : Decimal.Dyadic.signedNumerator ⟨true, m, -k⟩ = -(m : ℤ) := by
    rw [Decimal.Dyadic.signedNumerator, if_pos rfl, Decimal.Dyadic.numerator,
      Int.toNat_of_nonpos (Int.neg_nonpos_of_nonneg (Int.natCast_nonneg k))]
    exact congrArg (fun n : ℕ => -(n : ℤ)) (Nat.mul_one m)
  have hsum : ((2 ^ k : ℕ) : ℤ) + -(m : ℤ) = ((2 ^ k - m : ℕ) : ℤ) := by omega
  have hpos : (0 : ℤ) < (2 ^ k - m : ℕ) := by omega
  unfold log1p
  rw [hdyadic]
  simp only
  rw [hden, hnum, hsum]
  simp only [Int.toNat_natCast, beq_iff_eq]
  rw [if_neg hpos.not_gt, if_neg hpos.ne']
  rfl

/-- The logarithm of one minus a part is the negated part, or the double nearest to a fraction that
is not large. -/
theorem log1p_neg_cases {x : Float} {m : ℕ} {e : ℤ} {hm : 0 < m}
    (hx : x.toModel.unpack = .finite .positive m e hm) (hpart : e + m.log2 < 0) :
    log1p (-x) = -x ∨ ∃ log : ℤ, log.natAbs < 2 ^ 200 ∧
      log1p (-x) = nearest (decide (log < 0)) log.natAbs (-192) := by
  have hcanonical : Canonical x.toModel.unpack := canonical_unpack x.toModel.toBits.toBitVec
  rw [hx] at hcanonical
  have hdigits : m.log2 < 53 := (Nat.log2_lt hm.ne').mpr hcanonical.1
  obtain ⟨k, rfl⟩ : ∃ k : ℕ, e = -k := ⟨(-e).toNat, by omega⟩
  rw [log1p_neg_eq hx (by omega)]
  split
  · exact Or.inl rfl
  refine Or.inr ⟨_, ?_, rfl⟩
  have hlog := log2_mono (Nat.sub_le (2 ^ k) m)
  have hlead : (2 ^ k).log2 = k := Nat.log2_two_pow
  have hbound : (112 + 129) * Nat.pow 2 Logarithm.places < 2 ^ 200 := by decide +kernel
  refine lt_of_le_of_lt (Logarithm.natAbs_ofFraction_le _ _) (lt_of_le_of_lt ?_ hbound)
  exact Nat.mul_le_mul_right _ (by omega)

/-- The logarithm of one minus a part is not large. -/
theorem below_log1p_neg {x : Float} {m : ℕ} {e : ℤ} {hm : 0 < m}
    (hx : x.toModel.unpack = .finite .positive m e hm) (hpart : e + m.log2 < 0) :
    Below 10 (log1p (-x)).toModel.unpack := by
  rcases log1p_neg_cases hx hpart with hself | ⟨log, hlarge, hnearest⟩
  · rw [hself, below_neg, hx]
    exact lt_trans hpart (by norm_num)
  · rw [hnearest]
    refine below_nearest (n := 9) (by norm_num) (by norm_num) ?_ _
    by_cases hzero : log.natAbs = 0
    · exact Or.inl hzero
    · have hlog := (Nat.log2_lt hzero).mpr hlarge
      omega

/-- The logarithm of one minus a part is zero, or it is not much smaller than the part. -/
theorem atLeast_log1p_neg {x : Float} {m : ℕ} {e : ℤ} {hm : 0 < m} {n : ℤ}
    (hx : x.toModel.unpack = .finite .positive m e hm) (hpart : e + m.log2 < 0)
    (hn : n ≤ e + m.log2) (hplaces : n ≤ -192) :
    0 ≤ log1p (-x) ∨ AtLeast n (log1p (-x)).toModel.unpack := by
  rcases log1p_neg_cases hx hpart with hself | ⟨log, hlarge, hnearest⟩
  · rw [hself, atLeast_neg, hx]
    exact Or.inr hn
  · rw [hnearest]
    by_cases hzero : log = 0
    · rw [hzero]
      exact Or.inl (by decide +kernel)
    · have hne : log.natAbs ≠ 0 := Int.natAbs_ne_zero.mpr hzero
      have hlog := (Nat.log2_lt hne).mpr hlarge
      have hlead := atLeast_nearest hne (e := -192) (by omega) (by omega) (decide (log < 0))
      exact Or.inr (hlead.mono (by omega))

end Projectivity.Double
