import Projectivity.Proofs.Scalar.Magnitude

/-!
# The nearest double

The bits of the doubles that are not negative are in the order of the doubles, and so the
bits that are reckoned for the nearest double bound its magnitude.  The double nearest to
a fraction has its leading digit, or the next one.
-/

set_option autoImplicit false

namespace Projectivity.Double

open Float.Model (UnpackedFloat Format)
open Float.Model.UnpackedFloat

section Bits

/-- What is read as a dyadic fraction is a zero or has a mantissa. -/
theorem eq_of_ofUnpacked? {u : UnpackedFloat} {negative : Bool} {m : ℕ} {e : ℤ}
    (h : Decimal.Dyadic.ofUnpacked? u = some ⟨negative, m, e⟩) :
    (m = 0 ∧ ∃ s, u = .zero s) ∨ ∃ s hm, u = .finite s m e hm := by
  rcases u with _ | _ | s | ⟨s, n, f, hn⟩ <;> cases h
  · exact Or.inl ⟨rfl, s, rfl⟩
  · exact Or.inr ⟨s, hn, rfl⟩

/-- A double of small bits is below the least normal number. -/
theorem unpack_ofBits_of_lt {b : ℕ} (h : b < 2 ^ 52) :
    Decimal.Dyadic.ofUnpacked? (Float.ofBits (UInt64.ofNat b)).toModel.unpack =
      some ⟨false, b, -1074⟩ := by
  have hbits : (UInt64.ofNat b).toBitVec.toNat = b := Nat.mod_eq_of_lt (by omega)
  have hpow : Nat.pow 2 52 = 2 ^ 52 := rfl
  have hsign : b / Nat.pow 2 63 = 0 := Nat.div_eq_of_lt (lt_trans h (by decide))
  rw [unpack_ofBits, Decimal.Dyadic.ofUnpacked?_unpack, hbits, hsign, hpow, Nat.div_eq_of_lt h,
    Nat.mod_eq_of_lt h]
  rfl

/-- The leading bits of a normal double that is not negative are its exponent. -/
theorem unpack_ofBits_of_le {b : ℕ} (hlow : 2 ^ 52 ≤ b) (hhigh : b < 2047 * 2 ^ 52) :
    Decimal.Dyadic.ofUnpacked? (Float.ofBits (UInt64.ofNat b)).toModel.unpack =
      some ⟨false, 2 ^ 52 + b % 2 ^ 52, (b / 2 ^ 52 : ℕ) - 1075⟩ := by
  have hbits : (UInt64.ofNat b).toBitVec.toNat = b := Nat.mod_eq_of_lt (by omega)
  have hpow : Nat.pow 2 52 = 2 ^ 52 := rfl
  have hsign : b / Nat.pow 2 63 = 0 := Nat.div_eq_of_lt (lt_trans hhigh (by decide))
  have hfield : b / 2 ^ 52 % Nat.pow 2 11 = b / 2 ^ 52 :=
    Nat.mod_eq_of_lt (lt_trans (Nat.div_lt_of_lt_mul (by omega : b < 2 ^ 52 * 2047)) (by decide))
  have hlast : b / 2 ^ 52 ≠ 2047 := by omega
  have hfirst : b / 2 ^ 52 ≠ 0 := by omega
  rw [unpack_ofBits, Decimal.Dyadic.ofUnpacked?_unpack, hbits, hsign, hpow, hfield]
  simp only [beq_iff_eq, if_neg hlast, if_neg hfirst]
  rfl

/-- The logarithm of a mantissa with its leading digit. -/
theorem log2_leading {n : ℕ} (h : n < 2 ^ 52) : (2 ^ 52 + n).log2 = 52 :=
  (Nat.log2_eq_iff (by omega)).mpr ⟨by omega, by omega⟩

/-- A double of bits that are less than those of a power of two is below the power. -/
theorem below_ofBits {b : ℕ} {n : ℤ} (hlow : -1022 ≤ n) (hhigh : n ≤ 1024)
    (h : b < (n + 1023) * 2 ^ 52) : Below n (Float.ofBits (UInt64.ofNat b)).toModel.unpack := by
  by_cases hsmall : b < 2 ^ 52
  · rcases eq_of_ofUnpacked? (unpack_ofBits_of_lt hsmall) with ⟨-, s, heq⟩ | ⟨s, hm, heq⟩
    · rw [heq]
      trivial
    · rw [heq]
      have hlog := (Nat.log2_lt hm.ne').mpr hsmall
      simp only [Below]
      omega
  · rcases eq_of_ofUnpacked? (unpack_ofBits_of_le (not_lt.mp hsmall) (by omega)) with
      ⟨-, s, heq⟩ | ⟨s, hm, heq⟩
    · rw [heq]
      trivial
    · rw [heq]
      simp only [Below, log2_leading (Nat.mod_lt b (Nat.two_pow_pos 52))]
      omega

/-- A double of bits that are not less than those of a power of two is at least the power. -/
theorem atLeast_ofBits {b : ℕ} {n : ℤ} (hlow : -1022 ≤ n) (hhigh : b < 2047 * 2 ^ 52)
    (h : (n + 1023) * 2 ^ 52 ≤ b) : AtLeast n (Float.ofBits (UInt64.ofNat b)).toModel.unpack := by
  rcases eq_of_ofUnpacked? (unpack_ofBits_of_le (by omega) hhigh) with
    ⟨hzero, -⟩ | ⟨s, hm, heq⟩
  · omega
  · rw [heq]
    simp only [AtLeast, log2_leading (Nat.mod_lt b (Nat.two_pow_pos 52))]
    omega

end Bits

section Nearest

variable {m : ℕ} {e : ℤ}

/-- Rounding half to even gives the quotient or the next integer. -/
theorem roundHalfEven_bounds (num den : ℕ) :
    num / den ≤ Decimal.roundHalfEven num den ∧
      Decimal.roundHalfEven num den ≤ num / den + 1 := by
  unfold Decimal.roundHalfEven
  simp only
  split
  · omega
  · split
    · omega
    · split <;> omega

/-- Rounding half to even gives an exact quotient. -/
theorem roundHalfEven_mul (q : ℕ) {den : ℕ} (hden : 0 < den) :
    Decimal.roundHalfEven (q * den) den = q := by
  unfold Decimal.roundHalfEven
  simp only [Nat.mul_mod_left, Nat.mul_zero, if_pos hden, Nat.mul_div_cancel _ hden]

/-- A mantissa with enough digits is at least a power of two when it is scaled. -/
theorem le_scaled (hm : m ≠ 0) {k : ℤ} {p : ℕ} (h : p ≤ m.log2 + k) :
    2 ^ p * Nat.pow 2 (-k).toNat ≤ m * Nat.pow 2 k.toNat :=
  calc 2 ^ p * 2 ^ (-k).toNat
      = 2 ^ (p + (-k).toNat) := (pow_add 2 _ _).symm
    _ ≤ 2 ^ (m.log2 + k.toNat) := Nat.pow_le_pow_right two_pos (by omega)
    _ = 2 ^ m.log2 * 2 ^ k.toNat := pow_add 2 _ _
    _ ≤ m * 2 ^ k.toNat := Nat.mul_le_mul_right _ (Nat.log2_self_le hm)

/-- A mantissa with few digits is below a power of two when it is scaled. -/
theorem scaled_lt {k : ℤ} {p : ℕ} (h : m.log2 + k < p) :
    m * Nat.pow 2 k.toNat < 2 ^ p * Nat.pow 2 (-k).toNat :=
  calc m * 2 ^ k.toNat
      < 2 ^ (m.log2 + 1) * 2 ^ k.toNat :=
        Nat.mul_lt_mul_of_pos_right Nat.lt_log2_self (Nat.two_pow_pos _)
    _ = 2 ^ (m.log2 + 1 + k.toNat) := (pow_add 2 _ _).symm
    _ ≤ 2 ^ (p + (-k).toNat) := Nat.pow_le_pow_right two_pos (by omega)
    _ = 2 ^ p * 2 ^ (-k).toNat := pow_add 2 _ _

/-- The bits of the double nearest to a normal number lie between those of the powers of two next to
it. -/
theorem nearestBits_bounds (hm : m ≠ 0) (hnormal : -1022 ≤ e + m.log2) :
    (e + m.log2 + 1023) * 2 ^ 52 ≤ nearestBits m e ∧
      nearestBits m e ≤ (e + m.log2 + 1024) * 2 ^ 52 := by
  unfold nearestBits
  simp only [if_neg (not_lt.mpr hnormal)]
  generalize hshift : e - (e + m.log2 - 52) = shift
  have hlow := (Nat.le_div_iff_mul_le (Nat.two_pow_pos (-shift).toNat)).mpr
    (le_scaled hm (p := 52) (k := shift) (by omega))
  have hhigh := (Nat.div_lt_iff_lt_mul (Nat.two_pow_pos (-shift).toNat)).mpr
    (scaled_lt (m := m) (p := 53) (k := shift) (by omega))
  have hround := roundHalfEven_bounds (m * Nat.pow 2 shift.toNat) (Nat.pow 2 (-shift).toNat)
  have hpow : ∀ n, Nat.pow 2 n = 2 ^ n := fun n => rfl
  simp only [hpow] at hlow hhigh hround ⊢
  omega

/-- The bits of the double nearest to a number below the least normal one are at most its bits. -/
theorem nearestBits_le (hsubnormal : e + m.log2 < -1022) : nearestBits m e ≤ 2 ^ 52 := by
  unfold nearestBits
  simp only [if_pos hsubnormal]
  have hhigh := (Nat.div_lt_iff_lt_mul (Nat.two_pow_pos (-(e - -1074)).toNat)).mpr
    (scaled_lt (m := m) (p := 52) (k := e - -1074) (by omega))
  have hround := roundHalfEven_bounds (m * Nat.pow 2 (e - -1074).toNat)
    (Nat.pow 2 (-(e - -1074)).toNat)
  have hpow : ∀ n, Nat.pow 2 n = 2 ^ n := fun n => rfl
  simp only [hpow] at hhigh hround ⊢
  omega

/-- The opposite is below the same powers of two. -/
theorem below_neg {n : ℤ} {x : Float} :
    Below n (-x).toModel.unpack ↔ Below n x.toModel.unpack := by
  rw [unpack_neg]
  cases x.toModel.unpack <;> exact Iff.rfl

/-- The opposite is at least the same powers of two. -/
theorem atLeast_neg {n : ℤ} {x : Float} :
    AtLeast n (-x).toModel.unpack ↔ AtLeast n x.toModel.unpack := by
  rw [unpack_neg]
  cases x.toModel.unpack <;> exact Iff.rfl

/-- The double nearest to a number is zero or comes from bits, if the number is in range. -/
theorem nearest_cases (P : Float → Prop) (hzero : m = 0 ∨ e + m.log2 < -1080 → P 0)
    (hhigh : m = 0 ∨ e + m.log2 ≤ 1023)
    (hbits : m ≠ 0 → -1080 ≤ e + m.log2 → P (Float.ofBits (UInt64.ofNat (nearestBits m e)))) :
    P (nearest false m e) := by
  unfold nearest
  simp only [Bool.false_eq_true, if_false, Bool.or_eq_true, beq_iff_eq, decide_eq_true_eq]
  by_cases hnull : m = 0 ∨ e + m.log2 < -1080
  · rw [if_pos hnull]
    exact hzero hnull
  · rw [if_neg hnull, if_neg (by omega)]
    exact hbits (fun h => hnull (Or.inl h)) (not_lt.mp fun h => hnull (Or.inr h))

/-- The double nearest to a number below a power of two is below twice the power. -/
theorem below_nearest {n : ℤ} (hlow : -1022 ≤ n) (hhigh : n ≤ 1023) (h : m = 0 ∨ e + m.log2 < n)
    (negative : Bool) : Below (n + 1) (nearest negative m e).toModel.unpack := by
  have hmagnitude : Below (n + 1) (nearest false m e).toModel.unpack := by
    refine nearest_cases (fun x => Below (n + 1) x.toModel.unpack) (fun _ => trivial) (by omega)
      fun hm _ => below_ofBits (by omega) (by omega) ?_
    by_cases hsubnormal : e + m.log2 < -1022
    · have := nearestBits_le hsubnormal
      omega
    · have := (nearestBits_bounds hm (not_lt.mp hsubnormal)).2
      omega
  cases negative with
  | false => exact hmagnitude
  | true => exact below_neg.mpr hmagnitude

/-- The double nearest to a normal number is at least the power of two below the number. -/
theorem atLeast_nearest (hm : m ≠ 0) (hlow : -1022 ≤ e + m.log2) (hhigh : e + m.log2 ≤ 1022)
    (negative : Bool) : AtLeast (e + m.log2) (nearest negative m e).toModel.unpack := by
  have hmagnitude : AtLeast (e + m.log2) (nearest false m e).toModel.unpack := by
    have hbounds := nearestBits_bounds hm hlow
    exact nearest_cases (fun x => AtLeast (e + m.log2) x.toModel.unpack) (by omega) (by omega)
      fun _ _ => atLeast_ofBits hlow (by omega) hbounds.1
  cases negative with
  | false => exact hmagnitude
  | true => exact atLeast_neg.mpr hmagnitude

/-- The bits of one. -/
theorem nearestBits_one (k : ℕ) : nearestBits (2 ^ k) (-k) = 1023 * 2 ^ 52 := by
  have hlog : (2 ^ k).log2 = k := Nat.log2_two_pow
  have hpow : ∀ n, Nat.pow 2 n = 2 ^ n := fun n => rfl
  unfold nearestBits
  simp only [hlog, neg_add_cancel, hpow, show ¬ (0 : ℤ) < -1022 by decide, if_false]
  have hshift : 2 ^ k * 2 ^ (-(k : ℤ) - (0 - 52)).toNat =
      2 ^ 52 * 2 ^ (-(-(k : ℤ) - (0 - 52))).toNat := by
    rw [← pow_add, ← pow_add]
    congr 1
    omega
  rw [hshift, roundHalfEven_mul _ (Nat.two_pow_pos _)]
  rfl

/-- The double nearest to a number that is at most one is one, or below it. -/
theorem nearest_eq_one_or_below (h : m * 2 ^ e.toNat ≤ 2 ^ (-e).toNat) :
    nearest false m e = 1 ∨ Below 0 (nearest false m e).toModel.unpack := by
  have htop : m ≠ 0 → m.log2 + e.toNat ≤ (-e).toNat := by
    intro hm
    rw [← Nat.pow_le_pow_iff_right (a := 2) (by norm_num), pow_add]
    exact (Nat.mul_le_mul_right _ (Nat.log2_self_le hm)).trans h
  refine nearest_cases (fun x => x = 1 ∨ Below 0 x.toModel.unpack) (fun _ => Or.inr trivial) ?_
    fun hm _ => ?_
  · by_cases hm : m = 0
    · exact Or.inl hm
    · exact Or.inr (by have := htop hm; omega)
  have hbits : nearestBits m e ≤ 1023 * 2 ^ 52 := by
    rcases lt_trichotomy (e + m.log2) 0 with hbelow | hone | habove
    · by_cases hsubnormal : e + m.log2 < -1022
      · exact (nearestBits_le hsubnormal).trans (by norm_num)
      · have := (nearestBits_bounds hm (not_lt.mp hsubnormal)).2
        omega
    · -- The leading digit is all that there is.
      have hlead := htop hm
      rw [show e.toNat = 0 by omega, show (-e).toNat = m.log2 by omega, pow_zero, mul_one] at h
      rw [le_antisymm h (Nat.log2_self_le hm), show e = -(m.log2 : ℤ) by omega, nearestBits_one]
    · have := htop hm
      omega
  rcases hbits.eq_or_lt with heq | hlt
  · rw [heq]
    exact Or.inl rfl
  · exact Or.inr (below_ofBits (by norm_num) (by norm_num) (by omega))

end Nearest

end Projectivity.Double
