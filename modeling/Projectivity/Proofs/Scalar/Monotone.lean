import Projectivity.Proofs.Scalar.Value

/-!
# Rounding keeps the order

The double nearest to a number that is not negative is an integer of places of the last
digit, the nearest one and an even one of two.  This says what the double is, whatever
fraction it is reckoned from, so that a larger number is never rounded to a smaller one.
-/

set_option autoImplicit false

namespace Projectivity.Double

open Float.Model (UnpackedFloat Format)
open Float.Model.UnpackedFloat

section Integers

/-- An integer is nearest to a number, and even if another one is as near. -/
def IsNearest (y : ℚ) (r : ℤ) : Prop := |y - r| ≤ 1 / 2 ∧ (|y - r| = 1 / 2 → Even r)

variable {y z : ℚ} {r s : ℤ}

/-- An integer that is nearer than one half is nearest. -/
theorem isNearest_of_lt (h : |y - r| < 1 / 2) : IsNearest y r :=
  ⟨h.le, fun htie => absurd htie h.ne⟩

/-- An even integer is nearest also at a distance of one half. -/
theorem isNearest_of_even (h : |y - r| ≤ 1 / 2) (hr : Even r) : IsNearest y r := ⟨h, fun _ => hr⟩

/-- An integer is nearest to itself. -/
theorem isNearest_intCast (r : ℤ) : IsNearest r r :=
  isNearest_of_lt (by rw [sub_self, abs_zero]; norm_num)

/-- The opposite of a nearest integer is nearest to the opposite. -/
theorem IsNearest.neg (h : IsNearest y r) : IsNearest (-y) (-r) := by
  have habs : |(-y) - ((-r : ℤ) : ℚ)| = |y - r| := by
    rw [Int.cast_neg, neg_sub_neg, abs_sub_comm]
  exact ⟨habs ▸ h.1, fun htie => (h.2 (habs ▸ htie)).neg⟩

/-- A larger number has a nearest integer that is not smaller. -/
theorem IsNearest.mono (hy : IsNearest y r) (hz : IsNearest z s) (h : y ≤ z) : r ≤ s := by
  by_contra! hlt
  have hgap : (s : ℚ) + 1 ≤ r := by exact_mod_cast hlt
  have hr := abs_le.mp hy.1
  have hs := abs_le.mp hz.1
  -- Both numbers are halfway between the two integers, which cannot both be even.
  have hyr : y - r = -(1 / 2) := by linarith [hr.1, hs.2]
  have hzs : z - s = 1 / 2 := by linarith [hr.1, hs.2]
  have hnext : (r : ℚ) = s + 1 := by linarith [hr.1, hs.2]
  have hnext' : r = s + 1 := by exact_mod_cast hnext
  have hreven := hy.2 (by rw [hyr, abs_neg, abs_of_pos (by norm_num)])
  have hseven := hz.2 (by rw [hzs, abs_of_pos (by norm_num)])
  rw [Int.even_iff] at hreven hseven
  omega

/-- What a quotient of natural numbers has behind the point. -/
def part (num den : ℕ) : ℚ := (num % den : ℕ) / den

variable {num den : ℕ}

/-- A quotient is its integer part and its fractional part. -/
theorem div_eq_add_part (num : ℕ) (hden : 0 < den) :
    (num : ℚ) / den = (num / den : ℕ) + part num den := by
  have hpos : (0 : ℚ) < den := by exact_mod_cast hden
  unfold part
  rw [div_eq_iff hpos.ne', add_mul, div_mul_cancel₀ _ hpos.ne']
  exact_mod_cast (Nat.div_add_mod' num den).symm

/-- The fractional part is not negative. -/
theorem part_nonneg (num den : ℕ) : 0 ≤ part num den := by
  unfold part
  positivity

/-- The fractional part is less than one. -/
theorem part_lt_one (num : ℕ) (hden : 0 < den) : part num den < 1 :=
  (div_lt_one (by exact_mod_cast hden)).mpr (by exact_mod_cast Nat.mod_lt num hden)

/-- The fractional part is less than one half if twice the remainder is less than the divisor. -/
theorem part_lt_half_iff (num : ℕ) (hden : 0 < den) :
    part num den < 1 / 2 ↔ 2 * (num % den) < den := by
  unfold part
  rw [div_lt_div_iff₀ (by exact_mod_cast hden) two_pos, one_mul, mul_comm]
  norm_cast

/-- The fractional part is more than one half if twice the remainder is more than the divisor. -/
theorem half_lt_part_iff (num : ℕ) (hden : 0 < den) :
    1 / 2 < part num den ↔ den < 2 * (num % den) := by
  unfold part
  rw [div_lt_div_iff₀ two_pos (by exact_mod_cast hden), one_mul, mul_comm]
  norm_cast

/-- Rounding a quotient half to even gives a nearest integer. -/
theorem isNearest_roundHalfEven (num : ℕ) (hden : 0 < den) :
    IsNearest (num / den : ℚ) (Decimal.roundHalfEven num den : ℕ) := by
  have hnonneg := part_nonneg num den
  have hlt := part_lt_one num hden
  have hbelow := part_lt_half_iff num hden
  have habove := half_lt_part_iff num hden
  unfold Decimal.roundHalfEven
  simp only [beq_iff_eq, ← hbelow, ← habove]
  rw [div_eq_add_part num hden]
  generalize num / den = q
  generalize part num den = f at *
  split_ifs with hless hmore heven
  · refine isNearest_of_lt ?_
    rw [Int.cast_natCast, add_sub_cancel_left, abs_of_nonneg hnonneg]
    exact hless
  · refine isNearest_of_lt ?_
    push_cast
    rw [abs_lt]
    constructor <;> linarith
  · refine isNearest_of_even ?_ (by exact_mod_cast Nat.even_iff.mpr heven)
    rw [Int.cast_natCast, add_sub_cancel_left, abs_of_nonneg hnonneg]
    exact not_lt.mp hmore
  · refine isNearest_of_even ?_ (by exact_mod_cast Nat.even_iff.mpr (by omega))
    push_cast
    rw [abs_le]
    constructor <;> linarith

end Integers

section LastPlace

/-- The exponent of the last digit of the doubles next to a number. -/
structure IsLastPlace (x : ℚ) (e : ℤ) : Prop where
  least : -1074 ≤ e
  lt : x < 2 ^ (e + 53)
  le : e = -1074 ∨ 2 ^ (e + 52) ≤ x

variable {x y v w : ℚ} {e f : ℤ}

/-- Larger numbers have larger last places. -/
theorem IsLastPlace.mono (hx : IsLastPlace x e) (hy : IsLastPlace y f) (h : x ≤ y) : e ≤ f := by
  by_contra! hlt
  rcases hx.le with rfl | hlead
  · exact absurd hy.least (not_le.mpr hlt)
  · have hpow : (2 : ℚ) ^ (f + 53) ≤ 2 ^ (e + 52) := zpow_le_zpow_right₀ one_le_two (by omega)
    linarith [hy.lt]

/-- Rounded to the last place, a number has 53 digits, or one more after a carry. -/
theorem IsLastPlace.nearest_le (h : IsLastPlace x e) {r : ℤ} (hr : IsNearest (x / 2 ^ e) r) :
    r ≤ 2 ^ 53 := by
  refine hr.mono (isNearest_intCast _) ?_
  rw [div_le_iff₀ (two_zpow_pos e), Int.cast_pow, Int.cast_ofNat, ← zpow_natCast, ← two_zpow_add]
  exact h.lt.le.trans (zpow_le_zpow_right₀ one_le_two (by omega))

/-- The nearest mantissa has all its digits, unless the number is subnormal. -/
theorem IsLastPlace.le_nearest (h : IsLastPlace x e) {r : ℤ} (hr : IsNearest (x / 2 ^ e) r) :
    e = -1074 ∨ 2 ^ 52 ≤ r := by
  refine h.le.imp_right fun hlead => (isNearest_intCast _).mono hr ?_
  rw [le_div_iff₀ (two_zpow_pos e), Int.cast_pow, Int.cast_ofNat, ← zpow_natCast, ← two_zpow_add]
  exact (zpow_le_zpow_right₀ one_le_two (by omega)).trans hlead

/-- A number is rounded to a multiple of the last place. -/
def Rounds (x v : ℚ) : Prop := ∃ e r, IsLastPlace x e ∧ IsNearest (x / 2 ^ e) r ∧ v = r * 2 ^ e

/-- A number that is a multiple of its last place is rounded to itself. -/
theorem rounds_self {e : ℤ} (h : IsLastPlace x e) {r : ℤ} (hx : x = r * 2 ^ e) : Rounds x x := by
  refine ⟨e, r, h, ?_, hx⟩
  rw [hx, mul_div_cancel_right₀ _ (two_zpow_pos e).ne']
  exact isNearest_intCast r

/-- A larger number is not rounded to a smaller one, also where the last places differ. -/
theorem Rounds.mono (hx : Rounds x v) (hy : Rounds y w) (h : x ≤ y) : v ≤ w := by
  obtain ⟨e, r, he, hr, rfl⟩ := hx
  obtain ⟨f, s, hf, hs, rfl⟩ := hy
  rcases (he.mono hf h).eq_or_lt with rfl | hlt
  · have hrs := hr.mono hs (div_le_div_of_nonneg_right h (two_zpow_pos e).le)
    exact mul_le_mul_of_nonneg_right (by exact_mod_cast hrs) (two_zpow_pos e).le
  -- The first number is below a power of two that the second one is not below.
  have hhigh : r ≤ 2 ^ (f + 52 - e).toNat := by
    refine hr.mono (isNearest_intCast _) ?_
    rw [div_le_iff₀ (two_zpow_pos e), Int.cast_pow, Int.cast_ofNat, ← zpow_natCast, ← two_zpow_add]
    exact he.lt.le.trans (zpow_le_zpow_right₀ one_le_two (by omega))
  have hlow : 2 ^ 52 ≤ s := (hf.le_nearest hs).resolve_left (by have := he.least; omega)
  calc (r : ℚ) * 2 ^ e ≤ (2 ^ (f + 52 - e).toNat : ℤ) * 2 ^ e :=
        mul_le_mul_of_nonneg_right (by exact_mod_cast hhigh) (two_zpow_pos e).le
    _ = (2 ^ 52 : ℤ) * 2 ^ f := by
        rw [Int.cast_pow, Int.cast_pow, Int.cast_ofNat, ← zpow_natCast, ← zpow_natCast,
          ← two_zpow_add, ← two_zpow_add]
        congr 1
        omega
    _ ≤ s * 2 ^ f := mul_le_mul_of_nonneg_right (by exact_mod_cast hlow) (two_zpow_pos f).le

/-- What is not negative is rounded to what is not negative. -/
theorem Rounds.nonneg (h : Rounds x v) (hx : 0 ≤ x) : 0 ≤ v := by
  obtain ⟨e, r, -, hr, rfl⟩ := h
  have hnonneg : 0 ≤ r := by
    refine (isNearest_intCast 0).mono hr ?_
    rw [Int.cast_zero]
    exact div_nonneg hx (two_zpow_pos e).le
  exact mul_nonneg (by exact_mod_cast hnonneg) (two_zpow_pos e).le

/-- The exponent of a canonical double is the last place of its number. -/
theorem isLastPlace_of_canonical {s : Sign} {m : ℕ} {hm : 0 < m}
    (h : Canonical (.finite s m e hm)) : IsLastPlace (m * 2 ^ e) e := by
  obtain ⟨hdigits, hleast, -, hsubnormal⟩ := h
  refine ⟨hleast, mul_two_zpow_lt hdigits e, ?_⟩
  by_cases hlead : m < 2 ^ 52
  · exact Or.inl (hsubnormal hlead)
  · exact Or.inr (two_zpow_le_mul (not_lt.mp hlead) e)

/-- The exponent that a mantissa is shifted to is the last place of its number. -/
theorem isLastPlace_target {m : ℕ} (hm : m ≠ 0) (e : ℤ) :
    IsLastPlace (m * 2 ^ e) (target m e) := by
  have htarget : target m e = max (e + m.log2 - 52) (-1074) := rfl
  refine ⟨by omega, ?_, ?_⟩
  · refine (mul_two_zpow_lt Nat.lt_log2_self e).trans_le (zpow_le_zpow_right₀ one_le_two ?_)
    push_cast
    omega
  · rcases max_choice (e + m.log2 - 52) (-1074) with hlead | hleast
    · refine Or.inr (le_trans ?_ (two_zpow_le_mul (Nat.log2_self_le hm) e))
      exact zpow_le_zpow_right₀ one_le_two (by omega)
    · exact Or.inl (htarget.trans hleast)

end LastPlace

section Rounded

/-- A double is the one nearest to a number that is not negative, infinity standing for what is
above all finite doubles. -/
structure IsRounded (x : ℚ) (y : Float) : Prop where
  isNaN_eq : y.isNaN = false
  exists_rounds : ∃ v, Rounds x v ∧ number y = min v overflow

variable {x z : ℚ} {a b : Float}

/-- Rounding to doubles keeps the order of numbers. -/
theorem IsRounded.number_le (ha : IsRounded x a) (hb : IsRounded z b) (h : x ≤ z) :
    number a ≤ number b := by
  obtain ⟨v, hv, hav⟩ := ha.exists_rounds
  obtain ⟨w, hw, hbw⟩ := hb.exists_rounds
  rw [hav, hbw]
  exact min_le_min_right overflow (hv.mono hw h)

/-- Rounding to doubles keeps the order. -/
theorem IsRounded.le (ha : IsRounded x a) (hb : IsRounded z b) (h : x ≤ z) : a ≤ b :=
  (le_iff_number ha.isNaN_eq hb.isNaN_eq).mpr (ha.number_le hb h)

/-- What is not negative is rounded to a double that is not negative. -/
theorem IsRounded.number_nonneg (ha : IsRounded x a) (hx : 0 ≤ x) : 0 ≤ number a := by
  obtain ⟨v, hv, hav⟩ := ha.exists_rounds
  rw [hav]
  exact le_min (hv.nonneg hx) overflow_pos.le

/-- What is not below the least double above zero is not rounded to zero. -/
theorem IsRounded.number_pos (ha : IsRounded x a) (hx : 2 ^ (-1074 : ℤ) ≤ x) : 0 < number a := by
  obtain ⟨v, hv, hav⟩ := ha.exists_rounds
  have hleast : Rounds (2 ^ (-1074 : ℤ)) (2 ^ (-1074 : ℤ)) :=
    rounds_self (e := -1074) ⟨le_rfl, zpow_lt_zpow_right₀ one_lt_two (by norm_num), Or.inl rfl⟩
      (r := 1) (by rw [Int.cast_one, one_mul])
  rw [hav]
  exact lt_min ((two_zpow_pos _).trans_le (hleast.mono hv hx)) overflow_pos

/-- Zero is rounded to zero. -/
theorem isRounded_zero : IsRounded 0 0 :=
  ⟨rfl, 0, ⟨-1074, 0, ⟨le_rfl, two_zpow_pos _, Or.inl rfl⟩, by simp [IsNearest], by simp⟩,
    (min_eq_left overflow_pos.le).symm⟩

/-- A finite double that is not negative is the one nearest to its number. -/
theorem isRounded_number (hfinite : a.isFinite = true) (hnonneg : 0 ≤ a) :
    IsRounded (number a) a := by
  have hcanonical : Canonical a.toModel.unpack := canonical_unpack a.toModel.toBits.toBitVec
  refine ⟨isNaN_of_isFinite hfinite, number a, ?_⟩
  rw [zero_le_iff] at hnonneg
  change a.toModel.unpack.isFinite = true at hfinite
  unfold number
  generalize a.toModel.unpack = u at hcanonical hfinite hnonneg ⊢
  rcases u with (_ | _) | _ | s | ⟨_ | _, m, e, hm⟩
  case infinity.positive => cases hfinite
  case zero =>
    exact ⟨⟨-1074, 0, ⟨le_rfl, two_zpow_pos _, Or.inl rfl⟩, by simp [IsNearest, value],
      by simp [value]⟩, (min_eq_left overflow_pos.le).symm⟩
  case finite.positive =>
    exact ⟨rounds_self (isLastPlace_of_canonical hcanonical) (r := m) (by simp [value]),
      (min_eq_left hcanonical.magnitude.2.le).symm⟩
  all_goals exact hnonneg.elim

/-- A number that a double has is rounded to this double. -/
theorem IsRounded.number_eq (ha : IsRounded x a) (hx : Rounds x x) (hlt : x < overflow) :
    number a = x := by
  obtain ⟨v, hv, hav⟩ := ha.exists_rounds
  obtain rfl : v = x := le_antisymm (hv.mono hx le_rfl) (hx.mono hv le_rfl)
  rw [hav, min_eq_left hlt.le]

/-- A number of powers of two is a double as long as the count has not more digits than a
mantissa. -/
theorem rounds_natCast_mul {n : ℕ} (h : n ≤ 2 ^ 53) (k : ℕ) : Rounds (n * 2 ^ k) (n * 2 ^ k) := by
  rcases Nat.eq_zero_or_pos n with rfl | hn
  · exact ⟨-1074, 0, ⟨le_rfl, by simp, Or.inl rfl⟩, by simp [IsNearest], by simp⟩
  rw [← zpow_natCast]
  rcases h.eq_or_lt with rfl | hlt
  · -- The first number with 54 digits ends in a zero.
    have hlead : (2 : ℚ) ^ (k + 53 : ℤ) = (2 ^ 53 : ℕ) * 2 ^ (k : ℤ) := by
      rw [two_zpow_add, mul_comm]
      norm_num
    rw [← hlead]
    refine rounds_self (e := k + 1) ⟨by omega, ?_, Or.inr ?_⟩ (r := 2 ^ 52) ?_
    · exact zpow_lt_zpow_right₀ one_lt_two (by omega)
    · exact zpow_le_zpow_right₀ one_le_two (by omega)
    · rw [hlead, two_zpow_add]
      push_cast
      ring
  have hplace := isLastPlace_target hn.ne' k
  have hlog := (Nat.log2_lt hn.ne').mpr hlt
  have htarget : target n k = max ((k : ℤ) + n.log2 - 52) (-1074) := rfl
  refine rounds_self hplace (r := (n : ℤ) * 2 ^ (k - target n k).toNat) ?_
  rw [Int.cast_mul, Int.cast_pow, mul_assoc, Int.cast_ofNat, ← zpow_natCast, ← two_zpow_add,
    Int.toNat_of_nonneg (by omega), sub_add_cancel, Int.cast_natCast]

/-- Natural numbers up to a power of two are rounded to themselves. -/
theorem rounds_natCast {n : ℕ} (h : n ≤ 2 ^ 53) : Rounds n n := by
  simpa using rounds_natCast_mul h 0

/-- Natural numbers up to a power of two do not overflow. -/
theorem natCast_lt_overflow {n : ℕ} (h : n ≤ 2 ^ 53) : (n : ℚ) < overflow := by
  have hdigits : (n : ℚ) ≤ 2 ^ (53 : ℤ) := by exact_mod_cast h
  exact hdigits.trans_lt (zpow_lt_zpow_right₀ one_lt_two (by norm_num))

end Rounded

section Nearest

variable {m : ℕ} {e : ℤ}

/-- The value of what is read as a dyadic fraction is its number. -/
theorem value_of_ofUnpacked? {u : UnpackedFloat} {m : ℕ} {e : ℤ}
    (h : Decimal.Dyadic.ofUnpacked? u = some ⟨false, m, e⟩) :
    u.isNaN = false ∧ value u = m * 2 ^ e := by
  rcases u with _ | _ | (_ | _) | ⟨_ | _, n, f, hn⟩ <;> cases h <;> simp [value, isNaN]

/-- The number of a double whose bits are places of its last digit, counted on from the bits of a
power of two.  A carry out of the count moves into the exponent. -/
theorem number_ofBits {k count : ℕ} (hlead : k = 0 ∨ 2 ^ 52 ≤ count) (hcount : count ≤ 2 ^ 53)
    (hrange : k * 2 ^ 52 + count < 2047 * 2 ^ 52) :
    (Float.ofBits (UInt64.ofNat (k * 2 ^ 52 + count))).isNaN = false ∧
      number (Float.ofBits (UInt64.ofNat (k * 2 ^ 52 + count))) = count * 2 ^ (k - 1074 : ℤ) := by
  by_cases hsmall : k * 2 ^ 52 + count < 2 ^ 52
  · obtain rfl : k = 0 := by omega
    rw [Nat.zero_mul, Nat.zero_add] at hsmall ⊢
    exact value_of_ofUnpacked? (unpack_ofBits_of_lt hsmall)
  have hbits := value_of_ofUnpacked? (unpack_ofBits_of_le (not_lt.mp hsmall) hrange)
  refine ⟨hbits.1, hbits.2.trans ?_⟩
  rcases hcount.eq_or_lt with rfl | hlt
  · have hfield : (k * 2 ^ 52 + 2 ^ 53) / 2 ^ 52 = k + 2 := by omega
    have hrest : (k * 2 ^ 52 + 2 ^ 53) % 2 ^ 52 = 0 := by omega
    rw [hfield, hrest, show ((k + 2 : ℕ) : ℤ) - 1075 = k - 1074 + 1 by omega, two_zpow_add]
    push_cast
    ring
  · have hfield : (k * 2 ^ 52 + count) / 2 ^ 52 = k + 1 := by omega
    have hrest : 2 ^ 52 + (k * 2 ^ 52 + count) % 2 ^ 52 = count := by omega
    rw [hfield, hrest, show ((k + 1 : ℕ) : ℤ) - 1075 = k - 1074 by omega]

/-- A quotient of powers of two is one of natural numbers. -/
theorem two_zpow_div_two_zpow (e f : ℤ) :
    (2 : ℚ) ^ e / 2 ^ f = (2 ^ (e - f).toNat : ℕ) / (2 ^ (-(e - f)).toNat : ℕ) := by
  rw [div_eq_div_iff (two_zpow_pos f).ne' (by positivity), Nat.cast_pow, Nat.cast_pow,
    Nat.cast_ofNat, ← zpow_natCast, ← zpow_natCast, ← two_zpow_add, ← two_zpow_add]
  congr 1
  omega

/-- The bits of the nearest double count the places of its last digit. -/
theorem nearestBits_eq (hm : m ≠ 0) : ∃ k count : ℕ, nearestBits m e = k * 2 ^ 52 + count ∧
    (k : ℤ) - 1074 = target m e ∧ IsNearest (m * 2 ^ e / 2 ^ target m e) count := by
  refine ⟨(target m e + 1074).toNat, Decimal.roundHalfEven
    (m * 2 ^ (e - target m e).toNat) (2 ^ (-(e - target m e)).toNat), ?_, ?_, ?_⟩
  · have hpow : ∀ n, Nat.pow 2 n = 2 ^ n := fun n => rfl
    unfold nearestBits target
    simp only [hpow]
    by_cases hsubnormal : e + m.log2 < -1022
    · rw [if_pos hsubnormal, if_pos hsubnormal, max_eq_right (by omega)]
      simp
    · rw [if_neg hsubnormal, if_neg hsubnormal, max_eq_left (by omega)]
      congr 2
      omega
  · have hleast := (isLastPlace_target hm e).least
    omega
  · have hcount := isNearest_roundHalfEven (m * 2 ^ (e - target m e).toNat)
      (Nat.two_pow_pos (-(e - target m e)).toNat)
    rwa [Nat.cast_mul, mul_div_assoc, ← two_zpow_div_two_zpow, ← mul_div_assoc] at hcount

/-- A number that is less than half of the least place is rounded to zero. -/
theorem rounds_zero_of_lt (hplace : IsLastPlace (m * 2 ^ e) (-1074))
    (hlow : e + m.log2 < -1075) : Rounds (m * 2 ^ e) 0 := by
  have hsmall : (m : ℚ) * 2 ^ e < 1 / 2 * 2 ^ (-1074 : ℤ) :=
    calc (m : ℚ) * 2 ^ e < 2 ^ (e + (m.log2 + 1 : ℕ)) := mul_two_zpow_lt Nat.lt_log2_self e
      _ ≤ 2 ^ (-1 + -1074 : ℤ) := zpow_le_zpow_right₀ one_le_two (by push_cast; omega)
      _ = 1 / 2 * 2 ^ (-1074 : ℤ) := by rw [two_zpow_add]; norm_num
  have hnonneg : (0 : ℚ) ≤ m * 2 ^ e := mul_nonneg (Nat.cast_nonneg m) (two_zpow_pos e).le
  refine ⟨-1074, 0, hplace, isNearest_of_lt ?_, by simp⟩
  rw [Int.cast_zero, sub_zero, abs_of_nonneg (div_nonneg hnonneg (two_zpow_pos _).le),
    div_lt_iff₀ (two_zpow_pos _)]
  exact hsmall

/-- A dyadic fraction is rounded to a double that is nearest to it. -/
theorem isRounded_nearest (m : ℕ) (e : ℤ) : IsRounded (m * 2 ^ e) (nearest false m e) := by
  by_cases hm : m = 0
  · subst hm
    simpa [nearest] using isRounded_zero
  obtain ⟨k, count, hbits, hk, hcount⟩ := nearestBits_eq (e := e) hm
  have hplace := isLastPlace_target hm e
  have hrounds : Rounds (m * 2 ^ e) (count * 2 ^ target m e) := ⟨_, count, hplace, hcount, by simp⟩
  have hmost : count ≤ 2 ^ 53 := by exact_mod_cast hplace.nearest_le hcount
  have hleast : target m e = -1074 ∨ 2 ^ 52 ≤ count :=
    (hplace.le_nearest hcount).imp_right fun h => by exact_mod_cast h
  have htarget : target m e = max (e + m.log2 - 52) (-1074) := rfl
  unfold nearest
  simp only [Bool.false_eq_true, if_false, Bool.or_eq_true, beq_iff_eq, decide_eq_true_eq]
  split_ifs with hlow hhigh
  · have hrounds : Rounds (m * 2 ^ e) 0 := by
      rw [htarget, max_eq_right (by omega)] at hplace
      exact rounds_zero_of_lt hplace (by omega)
    exact ⟨rfl, 0, hrounds, (min_eq_left overflow_pos.le).symm⟩
  · refine ⟨rfl, _, hrounds, (min_eq_right ?_).symm⟩
    exact (zpow_le_zpow_right₀ one_le_two (by omega)).trans
      (two_zpow_le_mul (hleast.resolve_left (by omega)) (target m e))
  · rw [hbits]
    by_cases hrange : k * 2 ^ 52 + count < 2047 * 2 ^ 52
    · have hnumber := number_ofBits (by omega) hmost hrange
      rw [hk] at hnumber
      refine ⟨hnumber.1, _, hrounds, hnumber.2.trans (min_eq_left ?_).symm⟩
      calc (count : ℚ) * 2 ^ target m e ≤ 2 ^ 53 * 2 ^ target m e :=
            mul_le_mul_of_nonneg_right (by exact_mod_cast hmost) (two_zpow_pos _).le
        _ = 2 ^ (53 + target m e : ℤ) := by rw [two_zpow_add]; norm_num
        _ ≤ 2 ^ (1024 : ℤ) := zpow_le_zpow_right₀ one_le_two (by omega)
    · -- The carry is one into the exponent of infinity.
      obtain rfl : count = 2 ^ 53 := by omega
      obtain rfl : k = 2045 := by omega
      refine ⟨rfl, _, hrounds, (min_eq_right ?_).symm⟩
      exact (zpow_le_zpow_right₀ one_le_two (by omega)).trans (two_zpow_le_mul le_rfl (target m e))

end Nearest

end Projectivity.Double
