import Mathlib
import Projectivity.Proofs.Scalar.Order
import Projectivity.Scalar.Double

/-!
# The order of doubles

A double that is a number has a rank among the triples of integers: its sign, its
exponent and its mantissa.  Doubles are compared as their ranks are, which makes their
order a total one, and rounding never changes the sign of a sum.
-/

set_option autoImplicit false

namespace Projectivity.Double

open Float.Model (UnpackedFloat Format)
open Float.Model.UnpackedFloat

section Rank

/-- The place of a double in the order of the doubles; the undefined one has none. -/
def rank : UnpackedFloat → Option (ℤ ×ₗ ℤ ×ₗ ℤ)
  | .notANumber => none
  | .infinity .negative => some (toLex (-2, toLex (0, 0)))
  | .finite .negative m e _ => some (toLex (-1, toLex (-e, -m)))
  | .zero _ => some (toLex (0, toLex (0, 0)))
  | .finite .positive m e _ => some (toLex (1, toLex (e, m)))
  | .infinity .positive => some (toLex (2, toLex (0, 0)))

/-- Of keys that begin alike, the rest is compared. -/
theorem compare_toLex (k e f m n : ℤ) :
    compare (toLex (k, toLex (e, m))) (toLex (k, toLex (f, n))) =
      (compare e f).then (compare m n) := by
  simp [Prod.Lex.compare_def, compareLex, compareOn]

/-- Natural numbers are compared as integers. -/
theorem compare_natCast (m n : ℕ) : compare (m : ℤ) (n : ℤ) = compare m n := by
  rcases Nat.lt_trichotomy m n with h | h | h
  · rw [compare_lt_iff_lt.mpr h, compare_lt_iff_lt.mpr (Int.ofNat_lt.mpr h)]
  · rw [compare_eq_iff_eq.mpr h, compare_eq_iff_eq.mpr (congrArg _ h)]
  · rw [compare_gt_iff_gt.mpr h, compare_gt_iff_gt.mpr (Int.ofNat_lt.mpr h)]

/-- The opposites of two integers are compared the other way around. -/
theorem compare_neg (m n : ℤ) : compare (-m) (-n) = (compare m n).swap := by
  rcases Int.lt_trichotomy m n with h | h | h
  · rw [compare_lt_iff_lt.mpr h, compare_gt_iff_gt.mpr (Int.neg_lt_neg h)]
    rfl
  · rw [compare_eq_iff_eq.mpr h, compare_eq_iff_eq.mpr (congrArg _ h)]
    rfl
  · rw [compare_gt_iff_gt.mpr h, compare_lt_iff_lt.mpr (Int.neg_lt_neg h)]
    rfl

/-- Doubles are compared as their ranks are. -/
theorem compare_eq_rank (a b : UnpackedFloat) :
    a.compare b = (rank a).bind fun x => (rank b).map fun y => compare x y := by
  have hpositive : ∀ (m n : ℕ) (e f : ℤ), some ((compare e f).then (compare m n)) =
      some (compare (toLex ((1 : ℤ), toLex (e, (m : ℤ))))
        (toLex ((1 : ℤ), toLex (f, (n : ℤ))))) := by
    intro m n e f
    rw [compare_toLex, compare_natCast]
  have hnegative : ∀ (m n : ℕ) (e f : ℤ), some ((compare e f).then (compare m n)).swap =
      some (compare (toLex ((-1 : ℤ), toLex (-e, -(m : ℤ))))
        (toLex ((-1 : ℤ), toLex (-f, -(n : ℤ))))) := by
    intro m n e f
    rw [compare_toLex, compare_neg, compare_neg, compare_natCast, Ordering.swap_then]
  -- Only two numbers of the same sign are compared by their exponents and mantissas.
  rcases a with (_ | _) | _ | (_ | _) | ⟨_ | _, m, e, hm⟩ <;>
    rcases b with (_ | _) | _ | (_ | _) | ⟨_ | _, n, f, hn⟩
  case finite.negative.finite.negative => exact hnegative m n e f
  case finite.positive.finite.positive => exact hpositive m n e f
  all_goals rfl

/-- A double is at most another one exactly if both have a rank and the ranks are in order. -/
theorem le_iff_rank (a b : Float) : a ≤ b ↔
    ∃ x y, rank a.toModel.unpack = some x ∧ rank b.toModel.unpack = some y ∧ x ≤ y := by
  have hle : a ≤ b ↔ (a.toModel.unpack.compare b.toModel.unpack).any (fun o => o.isLE) = true := by
    show decide ((a.toModel.unpack.compare b.toModel.unpack).any (fun o => o.isLE) = true) = true ↔ _
    rw [decide_eq_true_eq]
  rw [hle, compare_eq_rank]
  cases rank a.toModel.unpack with
  | none => simp
  | some x =>
    cases rank b.toModel.unpack with
    | none => simp
    | some y => simp [Ordering.isLE_iff_ne_gt, compare_gt_iff_gt]

/-- A double is less than another one exactly if both have a rank and the ranks are in strict
order. -/
theorem lt_iff_rank (a b : Float) : a < b ↔
    ∃ x y, rank a.toModel.unpack = some x ∧ rank b.toModel.unpack = some y ∧ x < y := by
  have hlt : a < b ↔ a.toModel.unpack.compare b.toModel.unpack = some .lt := by
    show decide ((a.toModel.unpack.compare b.toModel.unpack == some .lt) = true) = true ↔ _
    rw [decide_eq_true_eq, beq_iff_eq]
  rw [hlt, compare_eq_rank]
  cases rank a.toModel.unpack with
  | none => simp
  | some x =>
    cases rank b.toModel.unpack with
    | none => simp
    | some y => simp [compare_lt_iff_lt]

end Rank

section Sign

/-- The doubles that are not negative, infinity and the two zeros among them. -/
def NotNegative : UnpackedFloat → Prop
  | .zero _ | .finite .positive .. | .infinity .positive => True
  | _ => False

/-- A double is not negative exactly if it is at least zero. -/
theorem zero_le_iff (a : Float) : 0 ≤ a ↔ NotNegative a.toModel.unpack := by
  have hzero : rank (Zero.zero : Float).toModel.unpack = some (toLex (0, toLex (0, 0))) := rfl
  rw [le_iff_rank, show rank (0 : Float).toModel.unpack = _ from hzero]
  rcases a.toModel.unpack with (_ | _) | _ | (_ | _) | ⟨_ | _, m, e, hm⟩ <;>
    simp [rank, NotNegative, Prod.Lex.toLex_le_toLex]

/-- What is rounded from a natural number is not negative. -/
theorem notNegative_round (m : ℕ) (e : ℤ) :
    NotNegative (UnpackedFloat.round Format.binary64 .positive m e) := by
  unfold UnpackedFloat.round roundWithAccuracy
  simp only
  split <;> trivial

/-- Before it is packed, the sum of two doubles that are not negative is not negative. -/
theorem notNegative_add {u v : UnpackedFloat} (hu : NotNegative u) (hv : NotNegative v) :
    NotNegative (add Format.binary64 u v) := by
  rcases u with (_ | _) | _ | (_ | _) | ⟨_ | _, m, e, hm⟩ <;>
    rcases v with (_ | _) | _ | (_ | _) | ⟨_ | _, n, f, hn⟩
  case finite.positive.finite.positive =>
    unfold add UnpackedFloat.normalize
    simp only
    split
    · rename_i hlt
      have hneg := compare_lt_iff_lt.mp hlt
      simp only [Sign.apply] at hneg
      omega
    · trivial
    · exact notNegative_round _ _
  all_goals trivial

/-- Before it is packed, the quotient of a double that is not negative and a positive number is not
negative. -/
theorem notNegative_div {u : UnpackedFloat} (hu : NotNegative u) {m : ℕ} {e : ℤ} (hm : 0 < m) :
    NotNegative (div Format.binary64 u (.finite .positive m e hm)) := by
  rcases u with (_ | _) | _ | (_ | _) | ⟨_ | _, n, f, hn⟩
  case finite.positive =>
    unfold div roundWithAccuracy
    simp only
    split <;> trivial
  all_goals trivial

/-- Infinity is above every finite double. -/
theorem rank_lt_of_isFinite {u : UnpackedFloat} {x : ℤ ×ₗ ℤ ×ₗ ℤ} (h : u.isFinite = true)
    (hx : rank u = some x) : x < toLex (2, toLex (0, 0)) := by
  rcases u with (_ | _) | _ | (_ | _) | ⟨_ | _, m, e, hm⟩ <;> cases h <;> cases hx <;>
    simp [Prod.Lex.toLex_lt_toLex]

/-- A double between zero and a finite one is finite. -/
theorem isFinite_of_le {a b : Float} (hpos : 0 ≤ a) (hle : a ≤ b) (hb : b.isFinite = true) :
    a.isFinite = true := by
  obtain ⟨x, y, hx, hy, hxy⟩ := (le_iff_rank _ _).mp hle
  have hbelow : x < toLex (2, toLex (0, 0)) := lt_of_le_of_lt hxy (rank_lt_of_isFinite hb hy)
  have hnonneg := (zero_le_iff _).mp hpos
  change a.toModel.unpack.isFinite = true
  rcases ha : a.toModel.unpack with (_ | _) | _ | (_ | _) | ⟨_ | _, m, e, hm⟩ <;>
    rw [ha] at hnonneg hx
  case infinity.positive =>
    cases hx
    exact absurd hbelow (lt_irrefl _)
  all_goals first | rfl | cases hnonneg

variable (format : Format)

/-- Bits with a positive sign are not negative unless their exponent is the one of infinity. -/
theorem notNegative_packComponents {exponent : BitVec format.exponentBits}
    {mantissa : BitVec format.mantissaBitsWithoutImplicit} (h : exponent ≠ -1#_) :
    NotNegative (unpack format (packComponents format .positive exponent mantissa)) := by
  have hsign : Sign.ofBitVec Sign.positive.toBitVec = .positive := rfl
  unfold unpack
  simp only [unpackSign_packComponents, unpackExponent_packComponents, if_neg h, hsign]
  split
  · split <;> trivial
  · trivial

/-- Packing does not change that a double is not negative. -/
theorem notNegative_pack {u : UnpackedFloat} (h : NotNegative u) :
    NotNegative (unpack Format.binary64 (pack Format.binary64 u)) := by
  rcases u with (_ | _) | _ | (_ | _) | ⟨_ | _, m, e, hm⟩
  case finite.positive =>
    unfold pack
    simp only
    split
    · trivial
    rename_i hrange
    split
    · apply notNegative_packComponents
      intro hones
      have hbits := congrArg BitVec.toNat hones
      simp only [BitVec.toNat_ofNat, BitVec.neg_one_eq_allOnes, BitVec.toNat_allOnes] at hbits
      rw [Nat.mod_eq_of_lt (by omega)] at hbits
      omega
    · exact notNegative_packComponents _ (by decide)
  all_goals trivial

end Sign

/-- Doubles are ordered, those that are numbers. -/
instance : Scalar.Ordered Float where
  le_refl_left h := by
    obtain ⟨x, y, hx, hy, hle⟩ := (le_iff_rank _ _).mp h
    exact (le_iff_rank _ _).mpr ⟨x, x, hx, hx, le_rfl⟩
  le_refl_right h := by
    obtain ⟨x, y, hx, hy, hle⟩ := (le_iff_rank _ _).mp h
    exact (le_iff_rank _ _).mpr ⟨y, y, hy, hy, le_rfl⟩
  le_trans hab hbc := by
    obtain ⟨x, y, hx, hy, hxy⟩ := (le_iff_rank _ _).mp hab
    obtain ⟨y', z, hy', hz, hyz⟩ := (le_iff_rank _ _).mp hbc
    obtain rfl := Option.some.inj (hy.symm.trans hy')
    exact (le_iff_rank _ _).mpr ⟨x, z, hx, hz, hxy.trans hyz⟩
  le_total ha hb := by
    obtain ⟨x, -, hx, -, -⟩ := (le_iff_rank _ _).mp ha
    obtain ⟨y, -, hy, -, -⟩ := (le_iff_rank _ _).mp hb
    rcases le_total x y with hle | hle
    · exact Or.inl ((le_iff_rank _ _).mpr ⟨x, y, hx, hy, hle⟩)
    · exact Or.inr ((le_iff_rank _ _).mpr ⟨y, x, hy, hx, hle⟩)
  lt_iff_not_le {a b} ha hb := by
    obtain ⟨x, -, hx, -, -⟩ := (le_iff_rank _ _).mp ha
    obtain ⟨y, -, hy, -, -⟩ := (le_iff_rank _ _).mp hb
    have hlt : a < b ↔ x < y := by simp [lt_iff_rank, hx, hy]
    have hle : b ≤ a ↔ y ≤ x := by simp [le_iff_rank, hx, hy]
    exact hlt.trans (hle.not.trans not_le).symm
  zero_le_zero := (zero_le_iff 0).mpr trivial
  add_nonneg ha hb := by
    have hsum := notNegative_add ((zero_le_iff _).mp ha) ((zero_le_iff _).mp hb)
    exact (zero_le_iff _).mpr (notNegative_pack hsum)

/-- Sums of doubles that are not negative are not negative. -/
instance : Summation.Nonneg Float where
  zero_le_total {values} := Extended.pairwiseSum_nonneg values

/-- The strict order of doubles is transitive. -/
instance : Scalar.Strict Float where
  le_refl_of_lt h := by
    obtain ⟨x, y, hx, -, -⟩ := (lt_iff_rank _ _).mp h
    exact (le_iff_rank _ _).mpr ⟨x, x, hx, hx, le_rfl⟩
  lt_trans hab hbc := by
    obtain ⟨x, y, hx, hy, hxy⟩ := (lt_iff_rank _ _).mp hab
    obtain ⟨y', z, hy', hz, hyz⟩ := (lt_iff_rank _ _).mp hbc
    obtain rfl := Option.some.inj (hy.symm.trans hy')
    exact (lt_iff_rank _ _).mpr ⟨x, z, hx, hz, hxy.trans hyz⟩

/-- Two has the digits of a power of two. -/
theorem unpack_two : (Float.ofNat 2).toModel.unpack =
    .finite .positive (2 ^ 52) (-51) (Nat.two_pow_pos 52) := rfl

/-- Medians can be formed of doubles. -/
instance : Scalar.Averaged Float where
  le_refl_of_lt := Scalar.Strict.le_refl_of_lt
  half_nonneg {a} ha := by
    have hquotient := notNegative_div (e := -51) ((zero_le_iff _).mp ha) (Nat.two_pow_pos 52)
    rw [← unpack_two] at hquotient
    exact (zero_le_iff _).mpr (notNegative_pack hquotient)
  isFinite_of_le := isFinite_of_le

end Projectivity.Double
