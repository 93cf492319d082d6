import Mathlib
import Projectivity.Decimal.Dyadic

/-!
# The fraction of a double

The fraction that is read off the bits of a double is the one of its sign, exponent and
mantissa.  The undefined double and the infinite ones have no fraction, and every other
double has one.
-/

set_option autoImplicit false

namespace Projectivity.Decimal.Dyadic

open Float.Model (UnpackedFloat Format)
open Float.Model.UnpackedFloat

/-- Whether a sign is the negative one. -/
def isNegative : Sign → Bool
  | .negative => true
  | .positive => false

/-- The fraction that an unpacked double stands for. -/
def ofUnpacked? : UnpackedFloat → Option Dyadic
  | .notANumber | .infinity _ => none
  | .zero sign => some ⟨isNegative sign, 0, -1074⟩
  | .finite sign mantissa exponent _ => some ⟨isNegative sign, mantissa, exponent⟩

/-- The exponent field as a number. -/
theorem unpackExponent_toNat (bits : BitVec 64) :
    (@unpackExponent Format.binary64 bits).toNat =
      bits.toNat / Nat.pow 2 52 % Nat.pow 2 11 := by
  unfold unpackExponent
  rw [BitVec.toNat_cast, BitVec.extractLsb_toNat, Nat.shiftRight_eq_div_pow]
  rfl

/-- The mantissa field as a number. -/
theorem unpackMantissa_toNat (bits : BitVec 64) :
    (@unpackMantissa Format.binary64 bits).toNat = bits.toNat % Nat.pow 2 52 := by
  unfold unpackMantissa
  rw [BitVec.toNat_cast, BitVec.extractLsb_toNat]
  rfl

/-- The sign field as a truth value. -/
theorem isNegative_unpackSign (bits : BitVec 64) :
    isNegative (Sign.ofBitVec (@unpackSign Format.binary64 bits)) =
      (bits.toNat / Nat.pow 2 63 == 1) := by
  have htop : bits.toNat / Nat.pow 2 63 < 2 := Nat.div_lt_of_lt_mul bits.isLt
  have htoNat : (@unpackSign Format.binary64 bits).toNat = bits.toNat / Nat.pow 2 63 := by
    rw [← Nat.mod_eq_of_lt htop]
    unfold unpackSign
    rw [BitVec.toNat_cast, BitVec.extractLsb_toNat, Nat.shiftRight_eq_div_pow]
    rfl
  rw [← htoNat] at htop ⊢
  unfold Sign.ofBitVec
  by_cases hzero : @unpackSign Format.binary64 bits = 0#1
  · rw [if_pos hzero, hzero]
    rfl
  · have hone : (@unpackSign Format.binary64 bits).toNat = 1 := by
      have hne : (@unpackSign Format.binary64 bits).toNat ≠ 0 :=
        fun h => hzero (BitVec.eq_of_toNat_eq h)
      omega
    rw [if_neg hzero, hone]
    rfl

/-- The mantissa with its leading digit as a number. -/
theorem toNat_one_append (mantissa : BitVec 52) :
    (1#1 ++ mantissa).toNat = Nat.pow 2 52 + mantissa.toNat := by
  rw [BitVec.toNat_append, ← Nat.shiftLeft_add_eq_or_of_lt mantissa.isLt]
  rfl

/-- The dyadic fraction of a double by its fields. -/
theorem ofUnpacked?_unpack (bits : BitVec 64) :
    ofUnpacked? (unpack Format.binary64 bits) =
      if bits.toNat / Nat.pow 2 52 % Nat.pow 2 11 == 2047 then none
      else if bits.toNat / Nat.pow 2 52 % Nat.pow 2 11 == 0 then
        some ⟨bits.toNat / Nat.pow 2 63 == 1, bits.toNat % Nat.pow 2 52, -1074⟩
      else some ⟨bits.toNat / Nat.pow 2 63 == 1, Nat.pow 2 52 + bits.toNat % Nat.pow 2 52,
        ((bits.toNat / Nat.pow 2 52 % Nat.pow 2 11 : Nat) : Int) - 1075⟩ := by
  have hones : @unpackExponent Format.binary64 bits = -1#11 ↔
      (@unpackExponent Format.binary64 bits).toNat = 2047 := BitVec.toNat_inj.symm
  have hzeros : @unpackExponent Format.binary64 bits = 0#11 ↔
      (@unpackExponent Format.binary64 bits).toNat = 0 := BitVec.toNat_inj.symm
  rw [← unpackExponent_toNat, ← unpackMantissa_toNat, ← isNegative_unpackSign]
  simp only [beq_iff_eq]
  unfold unpack
  simp only
  by_cases hlast : (@unpackExponent Format.binary64 bits).toNat = 2047
  · rw [if_pos hlast, if_pos (hones.mpr hlast)]
    split <;> rfl
  rw [if_neg hlast, if_neg (mt hones.mp hlast)]
  by_cases hfirst : (@unpackExponent Format.binary64 bits).toNat = 0
  · rw [if_pos hfirst, if_pos (hzeros.mpr hfirst)]
    by_cases hnull : @unpackMantissa Format.binary64 bits = 0#52
    · rw [dif_pos hnull, hnull]
      rfl
    · rw [dif_neg hnull]
      simp only [ofUnpacked?, hfirst]
      rfl
  · rw [if_neg hfirst, if_neg (mt hzeros.mp hfirst)]
    simp only [ofUnpacked?]
    rw [toNat_one_append]
    rfl

/-- The fraction of a double is read off its sign, its exponent and its mantissa. -/
theorem ofFloat?_eq (x : Float) : ofFloat? x = ofUnpacked? x.toModel.unpack :=
  (ofUnpacked?_unpack x.toModel.toBits.toBitVec).symm

/-- Doubles that are undefined or infinite are no fractions. -/
theorem ofFloat?_eq_none_iff (x : Float) :
    ofFloat? x = none ↔ x.isNaN = true ∨ x.isInf = true := by
  rw [ofFloat?_eq, show x.isNaN = x.toModel.unpack.isNaN from rfl,
    show x.isInf = x.toModel.unpack.isInf from rfl]
  cases x.toModel.unpack <;> simp [ofUnpacked?, UnpackedFloat.isNaN, UnpackedFloat.isInf]

/-- What is undefined is not infinite. -/
theorem isInf_of_isNaN {x : Float} (h : x.isNaN = true) : x.isInf = false := by
  change x.toModel.unpack.isNaN = true at h
  change x.toModel.unpack.isInf = false
  generalize x.toModel.unpack = u at h ⊢
  cases u with
  | notANumber => rfl
  | _ => cases h

end Projectivity.Decimal.Dyadic
