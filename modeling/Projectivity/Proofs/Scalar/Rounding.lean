import Projectivity.Proofs.Scalar.Double
import Projectivity.Proofs.Scalar.Dyadic

/-!
# Rounding to doubles

A double that is read from bits has a mantissa of 53 digits, or the least exponent, and
such a double keeps its sign, exponent and mantissa when it is packed into bits.
Rounding cuts a mantissa to 53 digits and does not move its leading digit, but for a
carry by one place.
-/

set_option autoImplicit false

namespace Projectivity.Double

open Float.Model (UnpackedFloat Format)
open Float.Model.UnpackedFloat

section Packing

/-- Doubles as they are read from their bits: a mantissa of 53 digits, or the least exponent. -/
def Canonical : UnpackedFloat → Prop
  | .finite _ m e _ => m < 2 ^ 53 ∧ -1074 ≤ e ∧ e ≤ 971 ∧ (m < 2 ^ 52 → e = -1074)
  | _ => True

/-- What bits are unpacked to is canonical. -/
theorem canonical_unpack (bits : BitVec 64) : Canonical (unpack Format.binary64 bits) := by
  have hmantissa := (@unpackMantissa Format.binary64 bits).isLt
  have hexponent := (@unpackExponent Format.binary64 bits).isLt
  have hbias : Format.binary64.exponentBias = 1023 := rfl
  unfold unpack
  simp only [hbias]
  split
  · split <;> trivial
  rename_i hlast
  split
  · rename_i hfirst
    split
    · trivial
    · rw [hfirst]
      refine ⟨?_, ?_, ?_, ?_⟩
      · exact lt_trans hmantissa (by decide)
      all_goals simp
  · rename_i hfirst
    have hpos : (@unpackExponent Format.binary64 bits).toNat ≠ 0 :=
      fun h => hfirst (BitVec.eq_of_toNat_eq h)
    have hlt : (@unpackExponent Format.binary64 bits).toNat ≠ 2047 :=
      fun h => hlast (BitVec.eq_of_toNat_eq h)
    simp only [Canonical]
    rw [Decimal.Dyadic.toNat_one_append]
    have hpow : Nat.pow 2 52 = 2 ^ 52 := rfl
    have h53 : 2 ^ 53 = 2 ^ 52 + 2 ^ 52 := by norm_num
    change _ < 2 ^ 52 at hmantissa
    change _ < 2 ^ 11 at hexponent
    refine ⟨by omega, by omega, by omega, by omega⟩

/-- What is canonical is unpacked again when it has been packed. -/
theorem unpack_pack {u : UnpackedFloat} (h : Canonical u) :
    unpack Format.binary64 (pack Format.binary64 u) = u := by
  rcases u with (_ | _) | _ | (_ | _) | ⟨s, m, e, hm⟩
  case finite =>
    obtain ⟨hm53, hemin, hemax, hsub⟩ := h
    have hbias : Format.binary64.exponentBias = 1023 := rfl
    have hsign : Sign.ofBitVec s.toBitVec = s := by cases s <;> rfl
    have hlog : m.log2 < 53 := (Nat.log2_lt hm.ne').mpr hm53
    have hfield : Format.binary64.mantissaBits = 53 := rfl
    unfold pack
    simp only [hbias, hfield]
    rw [if_neg (by omega)]
    by_cases hnormal : m.log2 + 1 = 53
    · have hm52 : 2 ^ 52 ≤ m := (Nat.le_log2 hm.ne').mp (by omega)
      rw [if_pos hnormal]
      unfold unpack
      simp only [unpackSign_packComponents, unpackExponent_packComponents,
        unpackMantissa_packComponents, hsign, hbias]
      have hbiased : (BitVec.ofNat 11 (e + 1023 + 52).toNat).toNat = (e + 1075).toNat := by
        rw [BitVec.toNat_ofNat, Nat.mod_eq_of_lt (by omega)]
        omega
      have hlast : BitVec.ofNat 11 (e + 1023 + 52).toNat ≠ -1#11 := by
        intro h
        have hones := hbiased.symm.trans (congrArg BitVec.toNat h)
        change (e + 1075).toNat = 2047 at hones
        omega
      have hfirst : BitVec.ofNat 11 (e + 1023 + 52).toNat ≠ 0#11 := by
        intro h
        have hzero := hbiased.symm.trans (congrArg BitVec.toNat h)
        change (e + 1075).toNat = 0 at hzero
        omega
      have hmantissa : (1#1 ++ BitVec.ofNat 52 m).toNat = m := by
        rw [Decimal.Dyadic.toNat_one_append, BitVec.toNat_ofNat]
        change 2 ^ 52 + m % 2 ^ 52 = m
        omega
      have hexponent :
          ((BitVec.ofNat 11 (e + 1023 + 52).toNat).toNat : ℤ) - (1023 + 52) = e := by
        rw [hbiased]
        omega
      simp only [Nat.cast_ofNat]
      rw [if_neg hlast, if_neg hfirst]
      simp only [hmantissa, hexponent]
    · have hm52 : m < 2 ^ 52 := (Nat.log2_lt hm.ne').mp (by omega)
      have hlow : e = -1074 := hsub hm52
      rw [if_neg hnormal]
      unfold unpack
      simp only [unpackSign_packComponents, unpackExponent_packComponents,
        unpackMantissa_packComponents, hsign, hbias]
      have hmod : m % 2 ^ 52 = m := Nat.mod_eq_of_lt hm52
      have hne : BitVec.ofNat 52 m ≠ 0#52 := by
        intro hzero
        have := congrArg BitVec.toNat hzero
        rw [BitVec.toNat_ofNat, hmod] at this
        exact hm.ne' this
      rw [if_neg (by decide), if_pos trivial, dif_neg hne]
      simp only [BitVec.toNat_ofNat, hmod, hlow]
      rfl
  all_goals rfl

/-- The opposite of what is canonical is canonical. -/
theorem canonical_neg {u : UnpackedFloat} (h : Canonical u) : Canonical u.neg := by
  cases u with
  | finite s m e hm => exact h
  | _ => trivial

/-- An opposite is unpacked to the opposite. -/
theorem unpack_neg (x : Float) : (-x).toModel.unpack = x.toModel.unpack.neg :=
  unpack_pack (canonical_neg (canonical_unpack x.toModel.toBits.toBitVec))

/-- What is given by its bits is unpacked from them. -/
theorem unpack_ofBits (bits : UInt64) :
    (Float.ofBits bits).toModel.unpack = unpack Format.binary64 bits.toBitVec :=
  unpack_pack (canonical_unpack bits.toBitVec)

end Packing

section Rounding

open ExtendedMantissa

/-- A shift divides the mantissa by a power of two. -/
theorem shiftRight_mantissa (em : ExtendedMantissa) (n : ℕ) :
    (em >>> n).mantissa = em.mantissa / 2 ^ n := by
  change (n.repeat shiftRightOne em).mantissa = _
  induction n with
  | zero => simp [Nat.repeat]
  | succ n ih =>
    change (n.repeat shiftRightOne em).mantissa / 2 = _
    rw [ih, Nat.div_div_eq_div_mul, pow_succ]

/-- Rounding takes the mantissa or the next one. -/
theorem mantissa_le_roundedMantissa (em : ExtendedMantissa) :
    em.mantissa ≤ em.roundedMantissa ∧ em.roundedMantissa ≤ em.mantissa + 1 := by
  obtain ⟨m, roundBit, stickyBit⟩ := em
  have hparity : m % 2 < 2 := Nat.mod_lt m two_pos
  cases roundBit <;> cases stickyBit <;>
    simp only [roundedMantissa, accuracy, Accuracy.roundToNearestEven] <;> omega

/-- A mantissa that is given with its accuracy is kept. -/
theorem ofMantissaAndAccuracy_mantissa (m : ℕ) (accuracy : Accuracy) :
    (ofMantissaAndAccuracy m accuracy).mantissa = m := by
  rcases accuracy with _ | _ | _ | _ <;> rfl

/-- The exponent that a mantissa is brought to -/
def target (m : ℕ) (e : ℤ) : ℤ := max (e + m.log2 - 52) (-1074)

/-- The target exponent of a number by its digits. -/
theorem targetExponent_eq (m : ℕ) (e : ℤ) :
    Format.binary64.targetExponent (Float.Model.totalExponent m e) = target m e := by
  have hbits : (Format.binary64.mantissaBits : ℤ) = 53 := rfl
  have hmin : Format.binary64.minExponent = -1074 := rfl
  unfold Format.targetExponent Float.Model.totalExponent target
  rw [hbits, hmin]
  omega

/-- A shift to the target exponent divides the mantissa, if it has too many digits. -/
theorem shiftToTargetExponent_eq (m : ℕ) (e : ℤ) (accuracy : Accuracy) :
    (shiftToTargetExponent Format.binary64 m e accuracy).1.mantissa =
        m / 2 ^ (target m e - e).toNat ∧
      (shiftToTargetExponent Format.binary64 m e accuracy).2 = max e (target m e) := by
  unfold shiftToTargetExponent shiftToExponent
  rw [targetExponent_eq]
  simp only [shiftRight_mantissa, ofMantissaAndAccuracy_mantissa, true_and]
  omega

/-- Dividing by a power of two takes its exponent from the logarithm. -/
theorem log2_div_two_pow (m n : ℕ) : (m / 2 ^ n).log2 = m.log2 - n := by
  rw [Nat.log2_eq_log_two, Nat.log2_eq_log_two, Nat.log_div_base_pow]

/-- Larger natural numbers have larger logarithms. -/
theorem log2_mono {m n : ℕ} (h : m ≤ n) : m.log2 ≤ n.log2 := by
  rw [Nat.log2_eq_log_two, Nat.log2_eq_log_two]
  exact Nat.log_mono_right h

/-- The next natural number has a logarithm that is larger by one at most. -/
theorem log2_succ_le (m : ℕ) : (m + 1).log2 ≤ m.log2 + 1 := by
  rcases Nat.eq_zero_or_pos m with rfl | hm
  · decide
  · refine Nat.lt_succ_iff.mp ((Nat.log2_lt (Nat.succ_ne_zero m)).mpr ?_)
    have hlt : m < 2 ^ (m.log2 + 1) := Nat.lt_log2_self
    rw [pow_succ]
    omega

/-- A number is rounded to a mantissa at the target exponent, and once more if the mantissa has got
another digit. -/
theorem exists_roundWithAccuracy_eq (s : Sign) (m : ℕ) (e : ℤ) (accuracy : Accuracy) :
    ∃ r, m / 2 ^ (target m e - e).toNat ≤ r ∧ r ≤ m / 2 ^ (target m e - e).toNat + 1 ∧
      roundWithAccuracy Format.binary64 s m e accuracy =
        if h : r / 2 ^ (target r (max e (target m e)) - max e (target m e)).toNat = 0 then .zero s
        else .finite s (r / 2 ^ (target r (max e (target m e)) - max e (target m e)).toNat)
          (max (max e (target m e)) (target r (max e (target m e)))) (Nat.pos_of_ne_zero h) := by
  obtain ⟨hmantissa, hexponent⟩ := shiftToTargetExponent_eq m e accuracy
  have hround := mantissa_le_roundedMantissa (shiftToTargetExponent Format.binary64 m e accuracy).1
  rw [hmantissa] at hround
  refine ⟨_, hround.1, hround.2, ?_⟩
  unfold roundWithAccuracy
  simp only [hexponent, (shiftToTargetExponent_eq _ _ _).1, (shiftToTargetExponent_eq _ _ _).2]

/-- A quotient by a power of two that is not larger is positive. -/
theorem div_two_pow_pos {m n : ℕ} (hm : m ≠ 0) (h : n ≤ m.log2) : 0 < m / 2 ^ n :=
  Nat.div_pos (le_trans (Nat.pow_le_pow_right two_pos h) (Nat.log2_self_le hm)) (Nat.two_pow_pos n)

/-- A number is rounded to zero, if it is below all doubles, or else to a mantissa of at most 53
digits.  A carry moves the leading digit by one place. -/
theorem roundWithAccuracy_cases (s : Sign) (m : ℕ) (e : ℤ) (accuracy : Accuracy) :
    ((m = 0 ∨ e + m.log2 < -1074) ∧
        roundWithAccuracy Format.binary64 s m e accuracy = .zero s) ∨
      ∃ r f h, roundWithAccuracy Format.binary64 s m e accuracy = .finite s r f h ∧
        r < 2 ^ 53 ∧ -1074 ≤ f ∧ f ≤ max e (max (e + m.log2 - 51) (-1074)) := by
  obtain ⟨r, hlow, hhigh, hround⟩ := exists_roundWithAccuracy_eq s m e accuracy
  have htarget : target m e = max (e + m.log2 - 52) (-1074) := rfl
  have hagain : target r (max e (target m e)) =
    max (max e (target m e) + r.log2 - 52) (-1074) := rfl
  have hlog := log2_div_two_pow m (target m e - e).toNat
  have hsucc := (log2_mono hhigh).trans (log2_succ_le _)
  have hfinal := log2_div_two_pow r (target r (max e (target m e)) - max e (target m e)).toNat
  rw [hround]
  split
  · rename_i hzero
    refine Or.inl ⟨?_, rfl⟩
    by_contra! hnonzero
    -- The leading digit of a number that is not below all doubles stays.
    have hq := div_two_pow_pos hnonzero.1 (n := (target m e - e).toNat) (by omega)
    have hlead := log2_mono hlow
    have hr := div_two_pow_pos (m := r) (by omega)
      (n := (target r (max e (target m e)) - max e (target m e)).toNat) (by omega)
    exact hr.ne' hzero
  · rename_i hne
    exact Or.inr ⟨_, _, Nat.pos_of_ne_zero hne, rfl, (Nat.log2_lt hne).mp (by omega), by omega,
      by omega⟩

end Rounding

end Projectivity.Double
