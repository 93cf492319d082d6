import Projectivity.Proofs.Scalar.Range

/-!
# Rounding with signs

Rounding goes by the size of a number, so the sign of an operand changes the sign of a
product or a quotient and nothing else, and a difference is a sum.  A sum, a difference,
a product or a quotient of doubles of any signs is therefore the exact number rounded.
-/

set_option autoImplicit false

namespace Projectivity.Double

open Float.Model (UnpackedFloat Format)
open Float.Model.UnpackedFloat

section Signs

/-- The opposite of the opposite of a sign is the sign. -/
theorem sign_neg_neg (s : Sign) : - -s = s := by cases s <;> rfl

/-- The opposite of the opposite of an unpacked double is the double. -/
theorem unpacked_neg_neg (u : UnpackedFloat) : u.neg.neg = u := by
  cases u <;> simp [UnpackedFloat.neg, sign_neg_neg]

/-- A number is rounded by its size, whatever its sign is. -/
theorem roundWithAccuracy_neg (s : Sign) (m : ℕ) (e : ℤ) (accuracy : Accuracy) :
    (roundWithAccuracy Format.binary64 s m e accuracy).neg =
      roundWithAccuracy Format.binary64 (-s) m e accuracy := by
  unfold roundWithAccuracy
  simp only
  split <;> rfl

/-- The sign is a bit of its own. -/
theorem unpack_packComponents_neg (s : Sign) (exponent : BitVec 11) (mantissa : BitVec 52) :
    unpack Format.binary64 (packComponents Format.binary64 (-s) exponent mantissa) =
      (unpack Format.binary64 (packComponents Format.binary64 s exponent mantissa)).neg := by
  have hsign : ∀ t : Sign, Sign.ofBitVec t.toBitVec = t := fun t => by cases t <;> rfl
  unfold unpack
  simp only [unpackSign_packComponents, unpackExponent_packComponents,
    unpackMantissa_packComponents, hsign]
  split_ifs <;> rfl

/-- Packing an opposite changes the sign of what is packed. -/
theorem unpack_pack_neg (u : UnpackedFloat) :
    unpack Format.binary64 (pack Format.binary64 u.neg) =
      (unpack Format.binary64 (pack Format.binary64 u)).neg := by
  cases u with
  | notANumber => rfl
  | infinity s => exact unpack_packComponents_neg s _ _
  | zero s => exact unpack_packComponents_neg s _ _
  | finite s m e hm =>
    unfold UnpackedFloat.neg pack
    simp only
    split_ifs <;> exact unpack_packComponents_neg s _ _

/-- The sign of a factor is a sign of the product. -/
theorem mul_neg_left (u v : UnpackedFloat) :
    mul Format.binary64 u.neg v = (mul Format.binary64 u v).neg := by
  have hsign : ∀ s t : Sign, -s * t = -(s * t) := fun s t => by cases s <;> cases t <;> rfl
  cases u <;> cases v <;>
    simp [UnpackedFloat.mul, UnpackedFloat.neg, hsign, ← roundWithAccuracy_neg]

/-- The sign of the second factor is a sign of the product as well. -/
theorem mul_neg_right (u v : UnpackedFloat) :
    mul Format.binary64 u v.neg = (mul Format.binary64 u v).neg := by
  have hsign : ∀ s t : Sign, s * -t = -(s * t) := fun s t => by cases s <;> cases t <;> rfl
  cases u <;> cases v <;>
    simp [UnpackedFloat.mul, UnpackedFloat.neg, hsign, ← roundWithAccuracy_neg]

/-- The sign of a numerator is a sign of the quotient. -/
theorem div_neg_left (u v : UnpackedFloat) :
    div Format.binary64 u.neg v = (div Format.binary64 u v).neg := by
  have hsign : ∀ s t : Sign, -s / t = -(s / t) := fun s t => by cases s <;> cases t <;> rfl
  cases u <;> cases v <;>
    simp [UnpackedFloat.div, UnpackedFloat.neg, hsign, ← roundWithAccuracy_neg]

/-- A difference is the sum with the opposite. -/
theorem unpacked_sub_eq_add_neg (u v : UnpackedFloat) :
    sub Format.binary64 u v = add Format.binary64 u v.neg := by
  have happly : ∀ (s : Sign) (n : ℤ), (-s).apply n = -(s.apply n) := fun s n => by
    cases s
    · exact (neg_neg n).symm
    · rfl
  cases u <;> cases v <;> simp [UnpackedFloat.sub, UnpackedFloat.add, UnpackedFloat.neg, happly,
    Int.sub_eq_add_neg]

end Signs

section Nearest

/-- A double is the one nearest to a number of either sign, infinity standing for what is beyond
all finite doubles. -/
structure IsNearestTo (q : ℚ) (x : Float) : Prop where
  isNaN_eq : x.isNaN = false
  exists_rounds : ∃ v, Rounds |q| v ∧ |number x| = min v overflow
  nonneg : 0 ≤ q → 0 ≤ number x
  nonpos : q ≤ 0 → number x ≤ 0

variable {q r : ℚ} {x y : Float} {k : ℤ}

/-- Zero is rounded to itself. -/
theorem rounds_zero : Rounds 0 0 :=
  ⟨-1074, 0, ⟨le_rfl, two_zpow_pos _, Or.inl rfl⟩, by simp [IsNearest], by simp⟩

/-- A double that stands for zero is nearest to it. -/
theorem isNearestTo_zero (hx : x.isNaN = false) (h : number x = 0) : IsNearestTo 0 x where
  isNaN_eq := hx
  exists_rounds := by
    refine ⟨0, ?_, ?_⟩
    · rw [abs_zero]
      exact rounds_zero
    · rw [h, abs_zero, min_eq_left overflow_pos.le]
  nonneg _ := h.ge
  nonpos _ := h.le

/-- A number that is not negative is rounded as one of either sign. -/
theorem IsRounded.isNearestTo (h : IsRounded q x) (hq : 0 ≤ q) : IsNearestTo q x := by
  rcases hq.eq_or_lt with rfl | hpos
  · exact isNearestTo_zero h.isNaN_eq (h.number_eq rounds_zero overflow_pos)
  · refine ⟨h.isNaN_eq, ?_, fun _ => h.number_nonneg hq, fun hle => absurd hle (not_le.mpr hpos)⟩
    rw [abs_of_nonneg hq, abs_of_nonneg (h.number_nonneg hq)]
    exact h.exists_rounds

/-- What a double is nearest to depends on what is unpacked from it, and changes its sign with
it. -/
theorem IsNearestTo.of_neg (h : IsNearestTo q x) (hy : y.toModel.unpack = x.toModel.unpack.neg) :
    IsNearestTo (-q) y := by
  have hnumber : number y = -number x := by rw [number, hy, value_neg, number]
  refine ⟨?_, ?_, fun hq => ?_, fun hq => ?_⟩
  · have hnan := h.isNaN_eq
    change x.toModel.unpack.isNaN = false at hnan
    change y.toModel.unpack.isNaN = false
    rw [hy]
    cases hu : x.toModel.unpack <;> rw [hu] at hnan <;> first | rfl | cases hnan
  · rw [abs_neg, hnumber, abs_neg]
    exact h.exists_rounds
  · rw [hnumber]
    exact neg_nonneg.mpr (h.nonpos (neg_nonneg.mp hq))
  · rw [hnumber]
    exact neg_nonpos.mpr (h.nonneg (neg_nonpos.mp hq))

/-- The same for two doubles that are unpacked to the same. -/
theorem IsNearestTo.of_unpack (h : IsNearestTo q x) (hy : y.toModel.unpack = x.toModel.unpack) :
    IsNearestTo q y := by
  have hneg : IsNearestTo (-q) (-x) := h.of_neg (unpack_neg x)
  have hback := hneg.of_neg (y := y) (by rw [unpack_neg, unpacked_neg_neg, hy])
  rwa [neg_neg] at hback

/-- A finite double is nearest to its own number. -/
theorem isNearestTo_number (hx : x.isFinite = true) : IsNearestTo (number x) x := by
  have hnan := isNaN_of_isFinite hx
  rcases le_total 0 (number x) with hq | hq
  · have hnonneg : 0 ≤ x := (le_iff_number rfl hnan).mpr (by rwa [number_zero])
    exact (isRounded_number hx hnonneg).isNearestTo hq
  · have hnonneg : 0 ≤ -x := by
      rw [le_iff_number rfl ((isNaN_neg x).trans hnan), number_zero, number_neg]
      exact neg_nonneg.mpr hq
    have hneg := (isRounded_number ((isFinite_neg x).trans hx) hnonneg).isNearestTo
      (by rw [number_neg]; exact neg_nonneg.mpr hq)
    have hback := hneg.of_neg (y := x) (by rw [unpack_neg, unpacked_neg_neg])
    rwa [number_neg, neg_neg] at hback

end Nearest

section Operations

variable {q : ℚ} {x y : Float}

/-- A finite double is a zero or has a mantissa. -/
theorem exists_unpack_of_isFinite (h : x.isFinite = true) :
    (∃ s, x.toModel.unpack = .zero s) ∨ ∃ s m e hm, x.toModel.unpack = .finite s m e hm := by
  change x.toModel.unpack.isFinite = true at h
  cases hu : x.toModel.unpack with
  | zero s => exact Or.inl ⟨s, rfl⟩
  | finite s m e hm => exact Or.inr ⟨s, m, e, hm, rfl⟩
  | _ =>
    rw [hu] at h
    cases h

/-- The number of a mantissa with its sign. -/
theorem number_eq_apply {s : Sign} {m : ℕ} {e : ℤ} {hm : 0 < m}
    (h : x.toModel.unpack = .finite s m e hm) : number x = (s.apply m : ℤ) * 2 ^ e := by
  rw [number, h]
  cases s <;> simp [value, Sign.apply]

/-- The number of a zero of some sign. -/
theorem number_of_unpack_zero {s : Sign} (h : x.toModel.unpack = .zero s) : number x = 0 := by
  rw [number, h, value]

/-- A zero of some sign is nearest to zero. -/
theorem isNearestTo_of_unpack_zero {s : Sign} (h : x.toModel.unpack = .zero s) :
    IsNearestTo 0 x := by
  refine isNearestTo_zero ?_ (number_of_unpack_zero h)
  change x.toModel.unpack.isNaN = false
  rw [h]
  rfl

/-- A zero is unpacked from what is packed from it. -/
theorem unpack_pack_zero (s : Sign) :
    unpack Format.binary64 (pack Format.binary64 (.zero s)) = .zero s := by
  cases s <;> rfl

/-- A signed mantissa is rounded to the nearest double. -/
theorem isNearestTo_normalize (M : ℤ) (e : ℤ) (hy : y.toModel.unpack = unpack Format.binary64
    (pack Format.binary64 (UnpackedFloat.normalize Format.binary64 M e .positive))) :
    IsNearestTo (M * 2 ^ e) y := by
  unfold UnpackedFloat.normalize at hy
  rcases lt_trichotomy M 0 with hneg | rfl | hpos
  · rw [compare_lt_iff_lt.mpr hneg] at hy
    have hround : UnpackedFloat.round Format.binary64 .negative (-M).toNat e =
        (UnpackedFloat.round Format.binary64 .positive (-M).toNat e).neg := by
      unfold UnpackedFloat.round
      exact (roundWithAccuracy_neg .positive _ _ _).symm
    have hrounded : IsRounded ((-M).toNat * 2 ^ e) (-y) := by
      refine isRounded_of_round (by omega) ?_
      rw [unpack_neg, hy, hround, unpack_pack_neg, unpacked_neg_neg]
    have hnonneg : (0 : ℚ) ≤ (-M).toNat * 2 ^ e :=
      mul_nonneg (Nat.cast_nonneg _) (two_zpow_pos e).le
    have hback := (hrounded.isNearestTo hnonneg).of_neg (y := y)
      (by rw [unpack_neg, unpacked_neg_neg])
    have hcast : (((-M).toNat : ℕ) : ℚ) = -M := by
      exact_mod_cast congrArg (Int.cast : ℤ → ℚ) (Int.toNat_of_nonneg (by omega : 0 ≤ -M))
    rwa [hcast, neg_mul, neg_neg] at hback
  · rw [compare_eq_iff_eq.mpr rfl] at hy
    rw [Int.cast_zero, zero_mul]
    exact isNearestTo_of_unpack_zero (hy.trans (unpack_pack_zero .positive))
  · rw [compare_gt_iff_gt.mpr hpos] at hy
    have hcast : ((M.toNat : ℕ) : ℚ) = M := by
      exact_mod_cast congrArg (Int.cast : ℤ → ℚ) (Int.toNat_of_nonneg hpos.le)
    have hrounded : IsRounded (M.toNat * 2 ^ e) y := isRounded_of_round (by omega) hy
    rw [hcast] at hrounded
    exact hrounded.isNearestTo (mul_nonneg (by exact_mod_cast hpos.le) (two_zpow_pos e).le)

/-- A signed mantissa in the place of another exponent that is not larger. -/
theorem apply_decreased (s : Sign) (m : ℕ) {e f : ℤ} (h : f ≤ e) :
    ((s.apply (m <<< (e - f).toNat : ℕ) : ℤ) : ℚ) * 2 ^ f = (s.apply m : ℤ) * 2 ^ e := by
  have hmantissa := mantissa_decreased m h
  cases s with
  | positive => exact hmantissa
  | negative =>
    simp only [Sign.apply, Int.cast_neg, neg_mul, neg_inj]
    exact hmantissa

/-- A sum is the exact sum rounded. -/
theorem isNearestTo_add (hx : x.isFinite = true) (hy : y.isFinite = true) :
    IsNearestTo (number x + number y) (x + y) := by
  have hsum : (x + y).toModel.unpack = unpack Format.binary64
      (pack Format.binary64 (add Format.binary64 x.toModel.unpack y.toModel.unpack)) := rfl
  have hsame : ∀ z : Float, unpack Format.binary64 (pack Format.binary64 z.toModel.unpack) =
      z.toModel.unpack := fun z => unpack_pack (canonical_unpack z.toModel.toBits.toBitVec)
  obtain ⟨s, hu⟩ | ⟨s, m, e, hm, hu⟩ := exists_unpack_of_isFinite hx <;>
    obtain ⟨t, hv⟩ | ⟨t, n, f, hn, hv⟩ := exists_unpack_of_isFinite hy
  · rw [number_of_unpack_zero hu, number_of_unpack_zero hv, add_zero]
    rw [hu, hv] at hsum
    cases s <;> cases t <;> exact isNearestTo_of_unpack_zero hsum
  · rw [number_of_unpack_zero hu, zero_add]
    refine (isNearestTo_number hy).of_unpack ?_
    have hcanonical := hsame y
    rw [hv] at hcanonical
    rw [hsum, hu, hv]
    exact hcanonical
  · rw [number_of_unpack_zero hv, add_zero]
    refine (isNearestTo_number hx).of_unpack ?_
    have hcanonical := hsame x
    rw [hu] at hcanonical
    rw [hsum, hu, hv]
    exact hcanonical
  · have hexact : number x + number y = ((s.apply (m <<< (e - min e f).toNat : ℕ) +
        t.apply (n <<< (f - min e f).toNat : ℕ) : ℤ) : ℚ) * 2 ^ min e f := by
      rw [Int.cast_add, add_mul, apply_decreased s m (min_le_left e f),
        apply_decreased t n (min_le_right e f), ← number_eq_apply hu, ← number_eq_apply hv]
    rw [hexact]
    refine isNearestTo_normalize _ _ ?_
    rw [hsum, hu, hv]
    rfl

/-- A difference is reckoned as the sum with the opposite. -/
theorem unpack_sub (x y : Float) : (x - y).toModel.unpack = (x + -y).toModel.unpack := by
  change unpack Format.binary64 (pack Format.binary64
      (sub Format.binary64 x.toModel.unpack y.toModel.unpack)) = unpack Format.binary64
    (pack Format.binary64 (add Format.binary64 x.toModel.unpack (-y).toModel.unpack))
  rw [unpack_neg, unpacked_sub_eq_add_neg]

/-- A difference is the exact difference rounded. -/
theorem isNearestTo_sub (hx : x.isFinite = true) (hy : y.isFinite = true) :
    IsNearestTo (number x - number y) (x - y) := by
  have hsum := isNearestTo_add hx ((isFinite_neg y).trans hy)
  rw [number_neg, ← sub_eq_add_neg] at hsum
  exact hsum.of_unpack (unpack_sub x y)

/-- The product of a number above zero and one of either sign is rounded. -/
theorem isNearestTo_mul_of_pos {m n : ℕ} {e f : ℤ} {hm : 0 < m} {hn : 0 < n} {t : Sign}
    (hx : x.toModel.unpack = .finite .positive m e hm) (hy : y.toModel.unpack = .finite t n f hn) :
    IsNearestTo (number x * number y) (x * y) := by
  have hnonneg : ∀ {z : Float} {k g} {hk : 0 < k}, z.toModel.unpack = .finite .positive k g hk →
      0 ≤ number z := fun hz => by
    rw [number_of_unpack hz]
    exact mul_nonneg (Nat.cast_nonneg _) (two_zpow_pos _).le
  cases t with
  | positive => exact (isRounded_mul hx hy).isNearestTo (mul_nonneg (hnonneg hx) (hnonneg hy))
  | negative =>
    have hopposite : (-y).toModel.unpack = .finite .positive n f hn := by
      rw [unpack_neg, hy]
      rfl
    have hproduct := (isRounded_mul hx hopposite).isNearestTo
      (mul_nonneg (hnonneg hx) (hnonneg hopposite))
    have hback := hproduct.of_neg (y := x * y) ?_
    · rwa [number_neg, mul_neg, neg_neg] at hback
    · change _ = (unpack Format.binary64 (pack Format.binary64
        (mul Format.binary64 x.toModel.unpack (-y).toModel.unpack))).neg
      rw [unpack_neg, mul_neg_right, unpack_pack_neg, unpacked_neg_neg]
      rfl

/-- A product is the exact product rounded. -/
theorem isNearestTo_mul (hx : x.isFinite = true) (hy : y.isFinite = true) :
    IsNearestTo (number x * number y) (x * y) := by
  have hproduct : (x * y).toModel.unpack = unpack Format.binary64
      (pack Format.binary64 (mul Format.binary64 x.toModel.unpack y.toModel.unpack)) := rfl
  obtain ⟨s, hu⟩ | ⟨s, m, e, hm, hu⟩ := exists_unpack_of_isFinite hx <;>
    obtain ⟨t, hv⟩ | ⟨t, n, f, hn, hv⟩ := exists_unpack_of_isFinite hy
  · rw [number_of_unpack_zero hu, zero_mul]
    rw [hu, hv] at hproduct
    exact isNearestTo_of_unpack_zero (hproduct.trans (unpack_pack_zero _))
  · rw [number_of_unpack_zero hu, zero_mul]
    rw [hu, hv] at hproduct
    exact isNearestTo_of_unpack_zero (hproduct.trans (unpack_pack_zero _))
  · rw [number_of_unpack_zero hv, mul_zero]
    rw [hu, hv] at hproduct
    exact isNearestTo_of_unpack_zero (hproduct.trans (unpack_pack_zero _))
  · cases s with
    | positive => exact isNearestTo_mul_of_pos hu hv
    | negative =>
      have hopposite : (-x).toModel.unpack = .finite .positive m e hm := by
        rw [unpack_neg, hu]
        rfl
      have hback := (isNearestTo_mul_of_pos hopposite hv).of_neg (y := x * y) ?_
      · rwa [number_neg, neg_mul, neg_neg] at hback
      · change _ = (unpack Format.binary64 (pack Format.binary64
          (mul Format.binary64 (-x).toModel.unpack y.toModel.unpack))).neg
        rw [unpack_neg, mul_neg_left, unpack_pack_neg, unpacked_neg_neg]
        rfl

/-- A quotient is the exact quotient rounded. -/
theorem isNearestTo_div (hx : x.isFinite = true) (hy : y.isFinite = true) (h : number y ≠ 0) :
    IsNearestTo (number x / number y) (x / y) := by
  have hquotient : (x / y).toModel.unpack = unpack Format.binary64
      (pack Format.binary64 (div Format.binary64 x.toModel.unpack y.toModel.unpack)) := rfl
  obtain ⟨t, hv⟩ | ⟨t, n, f, hn, hv⟩ := exists_unpack_of_isFinite hy
  · exact absurd (number_of_unpack_zero hv) h
  obtain ⟨s, hu⟩ | ⟨s, m, e, hm, hu⟩ := exists_unpack_of_isFinite hx
  · rw [number_of_unpack_zero hu, zero_div]
    rw [hu, hv] at hquotient
    exact isNearestTo_of_unpack_zero (hquotient.trans (unpack_pack_zero _))
  have hsame : ∀ {z : Float} {hm : 0 < m}, z.toModel.unpack = .finite t m e hm →
      IsNearestTo (number z / number y) (z / y) := fun hz => by
    refine (isRounded_div hz hv).isNearestTo ?_
    have hpos : ∀ {k : ℕ} {g : ℤ}, (0 : ℚ) ≤ k * 2 ^ g := fun {k g} =>
      mul_nonneg (Nat.cast_nonneg k) (two_zpow_pos g).le
    rw [number, number, hz, hv]
    cases t
    · exact div_nonneg_of_nonpos (neg_nonpos.mpr hpos) (neg_nonpos.mpr hpos)
    · exact div_nonneg hpos hpos
  by_cases hst : s = t
  · subst hst
    exact hsame hu
  · have hopposite : (-x).toModel.unpack = .finite t m e hm := by
      have hsign : -s = t := by cases s <;> cases t <;> first | rfl | exact absurd rfl hst
      rw [unpack_neg, hu, ← hsign]
      rfl
    have hback := (hsame hopposite).of_neg (y := x / y) ?_
    · rwa [number_neg, neg_div, neg_neg] at hback
    · change _ = (unpack Format.binary64 (pack Format.binary64
        (div Format.binary64 (-x).toModel.unpack y.toModel.unpack))).neg
      rw [unpack_neg, div_neg_left, unpack_pack_neg, unpacked_neg_neg]
      rfl

end Operations

end Projectivity.Double
