import Projectivity.Proofs.Scalar.Rounding

/-!
# The magnitude of doubles

A double is below a power of two or not, whatever its sign is.  The quotient of a double
below one power and a double that is not below another one is finite if the powers are
not too far apart.
-/

set_option autoImplicit false

namespace Projectivity.Double

open Float.Model (UnpackedFloat Format)
open Float.Model.UnpackedFloat

section Quotient

/-- The double is less than a power of two in magnitude. -/
def Below (n : ℤ) : UnpackedFloat → Prop
  | .zero _ => True
  | .finite _ m e _ => e + m.log2 < n
  | _ => False

/-- The double is at least a power of two in magnitude. -/
def AtLeast (n : ℤ) : UnpackedFloat → Prop
  | .infinity _ => True
  | .finite _ m e _ => n ≤ e + m.log2
  | _ => False

/-- What is at least a power of two is at least a smaller one. -/
theorem AtLeast.mono {m n : ℤ} {u : UnpackedFloat} (h : AtLeast n u) (hle : m ≤ n) :
    AtLeast m u := by
  cases u with
  | infinity s => trivial
  | finite s k e hk => exact hle.trans h
  | _ => exact h

/-- Components whose exponent is not the largest one are those of a finite double. -/
theorem isFinite_packComponents {s : Sign} {exponent : BitVec 11} {mantissa : BitVec 52}
    (h : exponent ≠ -1#11) : (unpack Format.binary64
      (packComponents Format.binary64 s exponent mantissa)).isFinite = true := by
  unfold unpack
  simp only [unpackExponent_packComponents, if_neg h]
  split
  · split <;> rfl
  · rfl

/-- A mantissa whose exponent is not too large is packed as a finite double. -/
theorem isFinite_pack {s : Sign} {m : ℕ} {e : ℤ} (hm : 0 < m) (he : e ≤ 971) :
    (unpack Format.binary64 (pack Format.binary64 (.finite s m e hm))).isFinite = true := by
  have hbias : Format.binary64.exponentBias = 1023 := rfl
  unfold pack
  simp only [hbias]
  rw [if_neg (by omega)]
  split
  · refine isFinite_packComponents fun hones => ?_
    have hbits := congrArg BitVec.toNat hones
    rw [BitVec.toNat_ofNat, Nat.mod_eq_of_lt (by omega)] at hbits
    change _ = 2047 at hbits
    omega
  · exact isFinite_packComponents (by decide)

/-- The logarithm of a quotient is at most the difference of the logarithms. -/
theorem log2_div_le (m n : ℕ) (hn : n ≠ 0) : (m / n).log2 ≤ m.log2 - n.log2 := by
  rw [← log2_div_two_pow]
  exact log2_mono (Nat.div_le_div_left (Nat.log2_self_le hn) (Nat.two_pow_pos _))

/-- A factor that is a power of two adds its exponent to the logarithm. -/
theorem log2_mul_two_pow {m : ℕ} (hm : m ≠ 0) (k : ℕ) : (m * 2 ^ k).log2 = m.log2 + k := by
  have hpos : 0 < m * 2 ^ k := Nat.mul_pos (Nat.pos_of_ne_zero hm) (Nat.two_pow_pos k)
  refine (Nat.log2_eq_iff hpos.ne').mpr ⟨?_, ?_⟩
  · rw [pow_add]
    exact Nat.mul_le_mul_right _ (Nat.log2_self_le hm)
  · rw [show m.log2 + k + 1 = m.log2 + 1 + k by omega, pow_add]
    exact Nat.mul_lt_mul_of_pos_right Nat.lt_log2_self (Nat.two_pow_pos k)

/-- A factor that is a power of two adds at most its exponent to the logarithm. -/
theorem log2_mul_two_pow_le (m k : ℕ) : (m * 2 ^ k).log2 ≤ m.log2 + k := by
  rcases eq_or_ne m 0 with rfl | hm
  · rw [Nat.zero_mul]
    exact Nat.zero_le _
  · exact (log2_mul_two_pow hm k).le

/-- The exponent at which a quotient is reckoned leaves enough of its digits. -/
theorem divCore_eq (m n : ℕ) (e f : ℤ) : ∃ k : ℕ,
    divCore Format.binary64 m e n f =
      (m * 2 ^ k / n, e - f - k, accuracyOfFraction (m * 2 ^ k % n) n) ∧
      e - f - k ≤ max (e + m.log2 - (f + n.log2) - 53) (-1074) := by
  have htarget : Format.binary64.targetExponent
      (Float.Model.totalExponent m e - Float.Model.totalExponent n f) =
        max (e + m.log2 - (f + n.log2) - 53) (-1074) := by
    have hbits : (Format.binary64.mantissaBits : ℤ) = 53 := rfl
    have hmin : Format.binary64.minExponent = -1074 := rfl
    unfold Format.targetExponent Float.Model.totalExponent
    rw [hbits, hmin]
    omega
  refine ⟨(e - f - min (e - f) (max (e + m.log2 - (f + n.log2) - 53) (-1074))).toNat, ?_, by omega⟩
  unfold divCore
  simp only [htarget, Nat.shiftLeft_eq, Prod.mk.injEq, true_and, and_true]
  omega

/-- The leading digit of a quotient is at the difference of the leading digits, or below it. -/
theorem divCore_le (m₁ m₂ : ℕ) (e₁ e₂ : ℤ) (hm₂ : 0 < m₂) :
    (divCore Format.binary64 m₁ e₁ m₂ e₂).2.1 + (divCore Format.binary64 m₁ e₁ m₂ e₂).1.log2 ≤
        max (e₁ + m₁.log2 - (e₂ + m₂.log2)) (-1074) ∧
      (divCore Format.binary64 m₁ e₁ m₂ e₂).2.1 ≤
        max (e₁ + m₁.log2 - (e₂ + m₂.log2) - 53) (-1074) := by
  obtain ⟨k, hcore, hexponent⟩ := divCore_eq m₁ m₂ e₁ e₂
  rw [hcore]
  have hlog := (log2_div_le (m₁ * 2 ^ k) m₂ hm₂.ne').trans
    (Nat.sub_le_sub_right (log2_mul_two_pow_le m₁ k) m₂.log2)
  simp only
  omega

/-- The quotient of a double and one that is not much smaller is finite. -/
theorem isFinite_div {x y : Float} {a b : ℤ} (hx : Below a x.toModel.unpack)
    (hy : AtLeast b y.toModel.unpack) (hab : a - b ≤ 1023) : (x / y).isFinite = true := by
  have hzero : ∀ s : Sign, (unpack Format.binary64 (pack Format.binary64 (.zero s))).isFinite =
      true := fun s => by cases s <;> rfl
  change (unpack Format.binary64 (pack Format.binary64
    (div Format.binary64 x.toModel.unpack y.toModel.unpack))).isFinite = true
  generalize x.toModel.unpack = u at hx ⊢
  generalize y.toModel.unpack = v at hy ⊢
  rcases u with _ | _ | _ | ⟨s, m₁, e₁, hm₁⟩ <;> rcases v with _ | _ | _ | ⟨s', m₂, e₂, hm₂⟩
  case finite.finite =>
    obtain ⟨htop, hexponent⟩ := divCore_le m₁ m₂ e₁ e₂ hm₂
    simp only [Below, AtLeast] at hx hy
    unfold div
    simp only
    generalize divCore Format.binary64 m₁ e₁ m₂ e₂ = q at htop hexponent ⊢
    rcases roundWithAccuracy_cases (s / s') q.1 q.2.1 q.2.2 with
      ⟨-, hround⟩ | ⟨r, f, hr, hround, -, -, hf⟩
    · rw [hround]
      exact hzero _
    · rw [hround]
      exact isFinite_pack hr (by omega)
  all_goals first | exact hx.elim | exact hy.elim | exact hzero _

end Quotient

section Parts

/-- The doubles that are above zero, infinity among them. -/
def IsPositive : UnpackedFloat → Prop
  | .finite .positive .. | .infinity .positive => True
  | _ => False

/-- One has the digits of a power of two. -/
theorem unpack_one : (1 : Float).toModel.unpack =
    .finite .positive (2 ^ 52) (-52) (Nat.two_pow_pos 52) := rfl

/-- A double is above zero exactly if it is positive. -/
theorem zero_lt_iff (x : Float) : 0 < x ↔ IsPositive x.toModel.unpack := by
  have hzero : rank (Zero.zero : Float).toModel.unpack = some (toLex (0, toLex (0, 0))) := rfl
  rw [lt_iff_rank, show rank (0 : Float).toModel.unpack = _ from hzero]
  rcases x.toModel.unpack with (_ | _) | _ | (_ | _) | ⟨_ | _, m, e, hm⟩ <;>
    simp [rank, IsPositive, Prod.Lex.toLex_lt_toLex]

/-- A double between zero and one is positive and has its leading digit behind the point. -/
theorem exists_of_part {x : Float} (hpos : 0 < x) (hlt : x < 1) :
    ∃ m e hm, x.toModel.unpack = .finite .positive m e hm ∧ e + m.log2 < 0 := by
  have hcanonical : Canonical x.toModel.unpack := canonical_unpack x.toModel.toBits.toBitVec
  have hpositive := (zero_lt_iff x).mp hpos
  obtain ⟨y, z, hy, hz, hyz⟩ := (lt_iff_rank _ _).mp hlt
  rw [unpack_one] at hz
  cases hz
  generalize x.toModel.unpack = u at hcanonical hpositive hy ⊢
  rcases u with (_ | _) | _ | s | ⟨_ | _, m, e, hm⟩
  case infinity.positive =>
    cases hy
    simp [Prod.Lex.toLex_lt_toLex] at hyz
  case finite.positive =>
    refine ⟨m, e, hm, rfl, ?_⟩
    cases hy
    obtain ⟨hdigits, -, -, hsubnormal⟩ := hcanonical
    have hlog := (Nat.log2_lt hm.ne').mpr hdigits
    simp only [Prod.Lex.toLex_lt_toLex, lt_self_iff_false, true_and, false_or] at hyz
    omega
  all_goals exact hpositive.elim

/-- What is below a power of two can be compared with itself. -/
theorem le_refl_of_below {x : Float} {n : ℤ} (h : Below n x.toModel.unpack) : x ≤ x := by
  rw [le_iff_rank]
  generalize x.toModel.unpack = u at h ⊢
  rcases u with _ | _ | _ | ⟨_ | _, m, e, hm⟩
  case infinity => exact h.elim
  case notANumber => exact h.elim
  all_goals exact ⟨_, _, rfl, rfl, le_rfl⟩

end Parts

section Naturals

/-- What is positive is not negative. -/
theorem IsPositive.notNegative {u : UnpackedFloat} (h : IsPositive u) : NotNegative u := by
  rcases u with (_ | _) | _ | _ | ⟨_ | _, m, e, hm⟩
  case infinity.positive => trivial
  case finite.positive => trivial
  all_goals exact h.elim

/-- What is not negative and not zero is positive. -/
theorem isPositive_of_notNegative {u : UnpackedFloat} (h : NotNegative u)
    (hzero : ∀ s, u ≠ .zero s) : IsPositive u := by
  rcases u with (_ | _) | _ | s | ⟨_ | _, m, e, hm⟩
  case zero => exact absurd rfl (hzero s)
  all_goals exact h

/-- Only components that are all zero are those of zero. -/
theorem unpack_packComponents_eq_zero {s s' : Sign} {exponent : BitVec 11} {mantissa : BitVec 52}
    (h : unpack Format.binary64 (packComponents Format.binary64 s exponent mantissa) = .zero s') :
    exponent = 0#11 ∧ mantissa = 0#52 := by
  unfold unpack at h
  simp only [unpackExponent_packComponents, unpackMantissa_packComponents] at h
  split at h
  · split at h <;> cases h
  · split at h
    · rename_i hexponent
      split at h
      · rename_i hmantissa
        exact ⟨hexponent, hmantissa⟩
      · cases h
    · cases h

/-- A mantissa that needs no rounding is not packed as zero. -/
theorem unpack_pack_ne_zero {s : Sign} {m : ℕ} {e : ℤ} (hm : 0 < m) (hdigits : m < 2 ^ 53)
    (he : -1074 ≤ e) (s' : Sign) :
    unpack Format.binary64 (pack Format.binary64 (.finite s m e hm)) ≠ .zero s' := by
  have hbias : Format.binary64.exponentBias = 1023 := rfl
  have hfield : Format.binary64.mantissaBits = 53 := rfl
  have hlog : m.log2 < 53 := (Nat.log2_lt hm.ne').mpr hdigits
  unfold pack
  simp only [hbias, hfield]
  split
  · cases s <;> exact UnpackedFloat.noConfusion
  rename_i hrange
  split
  · intro hzero
    have hbits := congrArg BitVec.toNat (unpack_packComponents_eq_zero hzero).1
    rw [BitVec.toNat_ofNat, Nat.mod_eq_of_lt (by omega)] at hbits
    change _ = 0 at hbits
    omega
  · rename_i hsubnormal
    intro hzero
    have hbits := congrArg BitVec.toNat (unpack_packComponents_eq_zero hzero).2
    rw [BitVec.toNat_ofNat, Nat.mod_eq_of_lt ((Nat.log2_lt hm.ne').mp (by omega))] at hbits
    exact hm.ne' hbits

/-- A mantissa that needs no rounding is packed as a positive double. -/
theorem isPositive_pack {m : ℕ} {e : ℤ} (hm : 0 < m) (hdigits : m < 2 ^ 53) (he : -1074 ≤ e) :
    IsPositive (unpack Format.binary64 (pack Format.binary64 (.finite .positive m e hm))) :=
  isPositive_of_notNegative (notNegative_pack (u := .finite .positive m e hm) trivial)
    (unpack_pack_ne_zero hm hdigits he)

/-- A number above zero is rounded to a double above zero, if it is not below all of them. -/
theorem isPositive_round {m : ℕ} {e : ℤ} {accuracy : Accuracy} (hm : m ≠ 0)
    (hlow : -1074 ≤ e + m.log2) : IsPositive (unpack Format.binary64 (pack Format.binary64
      (roundWithAccuracy Format.binary64 .positive m e accuracy))) := by
  rcases roundWithAccuracy_cases .positive m e accuracy with
    ⟨hbelow, -⟩ | ⟨r, f, hr, hround, hdigits, hf, -⟩
  · omega
  · rw [hround]
    exact isPositive_pack hr hdigits hf

/-- What is positive stays so when it is multiplied by one. -/
theorem isPositive_mul_one {x : Float} (h : IsPositive x.toModel.unpack) :
    IsPositive (x * 1).toModel.unpack := by
  have hcanonical : Canonical x.toModel.unpack := canonical_unpack x.toModel.toBits.toBitVec
  change IsPositive (unpack Format.binary64 (pack Format.binary64
    (mul Format.binary64 x.toModel.unpack (1 : Float).toModel.unpack)))
  rw [unpack_one]
  generalize x.toModel.unpack = u at h hcanonical ⊢
  rcases u with (_ | _) | _ | s | ⟨_ | _, m, e, hm⟩
  case infinity.positive => trivial
  case finite.positive =>
    refine isPositive_round (Nat.mul_pos hm (Nat.two_pow_pos 52)).ne' ?_
    have hlog := log2_mul_two_pow hm.ne' 52
    obtain ⟨-, hlow, -⟩ := hcanonical
    omega
  all_goals exact h.elim

/-- A positive natural number is a positive double. -/
theorem isPositive_pack_ofNat {n : ℕ} (hn : 0 < n) : IsPositive (unpack Format.binary64
    (pack Format.binary64 (UnpackedFloat.ofNat Format.binary64 n))) := by
  have hpos : compare (n : ℤ) 0 = .gt := compare_gt_iff_gt.mpr (by omega)
  unfold UnpackedFloat.ofNat UnpackedFloat.ofInt UnpackedFloat.normalize UnpackedFloat.round
    decreaseExponent
  rw [hpos]
  simp only [Int.toNat_natCast, Nat.shiftLeft_eq]
  refine isPositive_round (Nat.mul_pos hn (Nat.two_pow_pos _)).ne' ?_
  rw [log2_mul_two_pow hn.ne']
  omega

/-- A natural number above zero is a double above zero. -/
theorem isPositive_ofNat {n : ℕ} (hn : 0 < n) : IsPositive (Float.ofNat n).toModel.unpack := by
  change IsPositive (Float.ofScientific n false 0).toModel.unpack
  unfold Float.ofScientific
  split
  · rename_i hsmall
    simp only [Bool.false_eq_true, if_false]
    refine isPositive_mul_one ?_
    have hnat : n.toUInt64.toNat = n := Nat.mod_eq_of_lt (by omega)
    have hpositive := isPositive_pack_ofNat hn
    rw [← hnat] at hpositive
    exact hpositive
  · change IsPositive (unpack Format.binary64 (pack Format.binary64
      (UnpackedFloat.ofScientific Format.binary64 n 0)))
    unfold UnpackedFloat.ofScientific
    have hbits : (0 : ℤ) ≤ 2 ^ Format.binary64.exponentBits := by decide
    rw [dif_neg hn.ne', if_neg (by decide), if_neg (by omega), if_pos le_rfl]
    unfold UnpackedFloat.mul
    simp only [Int.toNat_zero, pow_zero, mul_one, Nat.shiftLeft_eq]
    refine isPositive_round (Nat.mul_pos hn (Nat.two_pow_pos _)).ne' ?_
    rw [log2_mul_two_pow hn.ne']
    omega

/-- The ratio of two natural numbers above zero is not negative, if the second one is in the range
of doubles. -/
theorem ratio_nonneg {a b : ℕ} (ha : 0 < a) (hb : 0 < b)
    (hfinite : (Float.ofNat b).isFinite = true) : 0 ≤ Float.ofNat a / Float.ofNat b := by
  have hnonneg := (isPositive_ofNat ha).notNegative
  have hpositive := isPositive_ofNat hb
  change (Float.ofNat b).toModel.unpack.isFinite = true at hfinite
  rw [zero_le_iff]
  refine notNegative_pack ?_
  generalize (Float.ofNat b).toModel.unpack = v at hpositive hfinite ⊢
  rcases v with _ | _ | _ | ⟨_ | _, m, e, hm⟩
  case finite.positive => exact notNegative_div hnonneg hm
  case infinity => cases hfinite
  all_goals exact hpositive.elim

end Naturals

end Projectivity.Double
