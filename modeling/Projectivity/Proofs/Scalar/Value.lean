import Projectivity.Proofs.Scalar.Nearest
import Projectivity.Proofs.Scalar.Norm

/-!
# The numbers that doubles stand for

A double stands for a rational number, infinity for the power of two above all finite
doubles.  Doubles are in the order of these numbers, because a canonical mantissa fills
its 53 digits unless the exponent is the least one.
-/

set_option autoImplicit false

namespace Projectivity.Double

open Float.Model (UnpackedFloat Format)
open Float.Model.UnpackedFloat

/-- The power of two above all finite doubles. -/
def overflow : ℚ := 2 ^ (1024 : ℤ)

/-- The number that an unpacked double stands for. -/
def value : UnpackedFloat → ℚ
  | .notANumber | .zero _ => 0
  | .finite .positive m e _ => m * 2 ^ e
  | .finite .negative m e _ => -(m * 2 ^ e)
  | .infinity .positive => overflow
  | .infinity .negative => -overflow

/-- The number that a double stands for. -/
def number (x : Float) : ℚ := value x.toModel.unpack

/-- The value of an opposite is the opposite value. -/
theorem value_neg (u : UnpackedFloat) : value u.neg = -value u := by
  rcases u with (_ | _) | _ | (_ | _) | ⟨_ | _, m, e, hm⟩ <;>
    simp [value, UnpackedFloat.neg]

/-- The number of an opposite is the opposite number. -/
theorem number_neg (x : Float) : number (-x) = -number x := by
  unfold number
  rw [unpack_neg, value_neg]

/-- The opposite of what is undefined is undefined. -/
theorem isNaN_neg (x : Float) : (-x).isNaN = x.isNaN := by
  change (-x).toModel.unpack.isNaN = x.toModel.unpack.isNaN
  rw [unpack_neg]
  cases x.toModel.unpack <;> rfl

/-- The opposite of what is finite is finite. -/
theorem isFinite_neg (x : Float) : (-x).isFinite = x.isFinite := by
  change (-x).toModel.unpack.isFinite = x.toModel.unpack.isFinite
  rw [unpack_neg]
  cases x.toModel.unpack <;> rfl

/-- The number of zero. -/
theorem number_zero : number 0 = 0 := rfl

/-- The number of one. -/
theorem number_one : number 1 = 1 := by
  unfold number
  rw [unpack_one]
  norm_num [value]

section Order

variable {m n : ℕ} {e f : ℤ}

/-- Powers of two are positive. -/
theorem two_zpow_pos (e : ℤ) : (0 : ℚ) < 2 ^ e := zpow_pos two_pos e

/-- Powers of two are multiplied by adding their exponents. -/
theorem two_zpow_add (e f : ℤ) : (2 : ℚ) ^ (e + f) = 2 ^ e * 2 ^ f := zpow_add₀ two_ne_zero e f

/-- A mantissa with few digits is below a power of two. -/
theorem mul_two_zpow_lt {k : ℕ} (h : m < 2 ^ k) (e : ℤ) : (m : ℚ) * 2 ^ e < 2 ^ (e + k) := by
  rw [two_zpow_add, mul_comm, zpow_natCast]
  exact mul_lt_mul_of_pos_left (by exact_mod_cast h) (two_zpow_pos e)

/-- A mantissa with enough digits is at least a power of two. -/
theorem two_zpow_le_mul {k : ℕ} (h : 2 ^ k ≤ m) (e : ℤ) : (2 : ℚ) ^ (e + k) ≤ m * 2 ^ e := by
  rw [two_zpow_add, mul_comm, zpow_natCast]
  exact mul_le_mul_of_nonneg_right (by exact_mod_cast h) (two_zpow_pos e).le

/-- Magnitudes are in the order of their exponents, and then of their mantissas. -/
theorem magnitude_lt (hm : m < 2 ^ 53) (he : -1074 ≤ e) (hn : n < 2 ^ 52 → f = -1074)
    (h : e < f ∨ e = f ∧ m < n) : (m : ℚ) * 2 ^ e < n * 2 ^ f := by
  rcases h with hlt | ⟨rfl, hlt⟩
  · have hdigits : 2 ^ 52 ≤ n := not_lt.mp fun h => by have := hn h; omega
    calc (m : ℚ) * 2 ^ e < 2 ^ (e + (53 : ℕ)) := mul_two_zpow_lt hm e
      _ ≤ 2 ^ (f + (52 : ℕ)) := zpow_le_zpow_right₀ one_le_two (by omega)
      _ ≤ n * 2 ^ f := two_zpow_le_mul hdigits f
  · exact mul_lt_mul_of_pos_right (by exact_mod_cast hlt) (two_zpow_pos e)

/-- The overflow is positive. -/
theorem overflow_pos : 0 < overflow := two_zpow_pos 1024

/-- The number of a canonical double is positive and below the overflow. -/
theorem Canonical.magnitude {s : Sign} {hm : 0 < m} (h : Canonical (.finite s m e hm)) :
    (0 : ℚ) < m * 2 ^ e ∧ (m : ℚ) * 2 ^ e < overflow := by
  refine ⟨mul_pos (by exact_mod_cast hm) (two_zpow_pos e), ?_⟩
  calc (m : ℚ) * 2 ^ e < 2 ^ (e + (53 : ℕ)) := mul_two_zpow_lt h.1 e
    _ ≤ 2 ^ (1024 : ℤ) := zpow_le_zpow_right₀ one_le_two (by have := h.2.2.1; omega)

/-- Doubles of different rank stand for different numbers, in the same order. -/
theorem value_lt_of_rank_lt {u v : UnpackedFloat} (hu : Canonical u) (hv : Canonical v)
    {x y : ℤ ×ₗ ℤ ×ₗ ℤ} (hx : rank u = some x) (hy : rank v = some y) (h : x < y) :
    value u < value v := by
  have htop := overflow_pos
  rcases u with (_ | _) | _ | (_ | _) | ⟨_ | _, m, e, hm⟩ <;>
    rcases v with (_ | _) | _ | (_ | _) | ⟨_ | _, n, f, hn⟩ <;> cases hx <;> cases hy <;>
    simp only [Prod.Lex.toLex_lt_toLex, value] at h ⊢
  -- Two numbers of the same sign are compared by their exponents and mantissas.
  case finite.negative.finite.negative =>
    refine neg_lt_neg (magnitude_lt hv.1 hv.2.1 hu.2.2.2 ?_)
    omega
  case finite.positive.finite.positive =>
    refine magnitude_lt hu.1 hu.2.1 hv.2.2.2 ?_
    omega
  -- The others are apart because of their signs, or because one of them is infinite.
  case finite.negative.finite.positive => linarith [hu.magnitude.1, hv.magnitude.1]
  all_goals first
    | omega
    | linarith
    | linarith [hu.magnitude.1, hu.magnitude.2]
    | linarith [hv.magnitude.1, hv.magnitude.2]

/-- What is not undefined has a rank. -/
theorem exists_rank {u : UnpackedFloat} (h : u.isNaN = false) : ∃ x, rank u = some x := by
  rcases u with (_ | _) | _ | (_ | _) | ⟨_ | _, m, e, hm⟩
  case notANumber => cases h
  all_goals exact ⟨_, rfl⟩

/-- What has the same rank has the same value. -/
theorem value_eq_of_rank_eq {u v : UnpackedFloat} (h : rank u = rank v) : value u = value v := by
  rcases u with (_ | _) | _ | (_ | _) | ⟨_ | _, m, e, hm⟩ <;>
    rcases v with (_ | _) | _ | (_ | _) | ⟨_ | _, n, f, hn⟩ <;>
    simp_all [rank, value]

/-- Doubles are in the order of the numbers that they stand for. -/
theorem le_iff_number {x y : Float} (hx : x.isNaN = false) (hy : y.isNaN = false) :
    x ≤ y ↔ number x ≤ number y := by
  have hu : Canonical x.toModel.unpack := canonical_unpack x.toModel.toBits.toBitVec
  have hv : Canonical y.toModel.unpack := canonical_unpack y.toModel.toBits.toBitVec
  obtain ⟨a, ha⟩ := exists_rank hx
  obtain ⟨b, hb⟩ := exists_rank hy
  rw [le_iff_rank]
  constructor
  · rintro ⟨a, b, ha, hb, hab⟩
    rcases hab.eq_or_lt with rfl | hlt
    · exact (value_eq_of_rank_eq (ha.trans hb.symm)).le
    · exact (value_lt_of_rank_lt hu hv ha hb hlt).le
  · intro hle
    refine ⟨a, b, ha, hb, not_lt.mp fun hlt => ?_⟩
    exact absurd (value_lt_of_rank_lt hv hu hb ha hlt) (not_lt.mpr hle)

/-- Doubles are strictly ordered as their numbers are. -/
theorem lt_iff_number {x y : Float} (hx : x.isNaN = false) (hy : y.isNaN = false) :
    x < y ↔ number x < number y := by
  rw [Scalar.Ordered.lt_iff_not_le ((le_refl_iff x).mpr hx) ((le_refl_iff y).mpr hy),
    le_iff_number hy hx, not_le]

/-- A double that is not undefined is finite exactly if its number is below the power of two above
all finite doubles. -/
theorem isFinite_iff_number {x : Float} (hx : x.isNaN = false) :
    x.isFinite = true ↔ |number x| < overflow := by
  have hcanonical : Canonical x.toModel.unpack := canonical_unpack x.toModel.toBits.toBitVec
  change x.toModel.unpack.isNaN = false at hx
  change x.toModel.unpack.isFinite = true ↔ |value x.toModel.unpack| < overflow
  have htop := overflow_pos
  generalize x.toModel.unpack = u at hcanonical hx
  rcases u with (_ | _) | _ | s | ⟨_ | _, m, e, hm⟩
  case notANumber => cases hx
  case zero => simpa [value, isFinite] using htop
  case finite.negative =>
    rw [value, abs_neg, abs_of_pos hcanonical.magnitude.1]
    exact iff_of_true rfl hcanonical.magnitude.2
  case finite.positive =>
    rw [value, abs_of_pos hcanonical.magnitude.1]
    exact iff_of_true rfl hcanonical.magnitude.2
  case infinity.negative =>
    rw [value, abs_neg, abs_of_pos htop]
    exact iff_of_false Bool.false_ne_true (lt_irrefl _)
  case infinity.positive =>
    rw [value, abs_of_pos htop]
    exact iff_of_false Bool.false_ne_true (lt_irrefl _)

/-- A positive finite double has a mantissa and an exponent. -/
theorem exists_unpack_of_pos {x : Float} (hpos : 0 < x) (hfinite : x.isFinite = true) :
    ∃ m e hm, x.toModel.unpack = .finite .positive m e hm := by
  rw [zero_lt_iff] at hpos
  change x.toModel.unpack.isFinite = true at hfinite
  generalize x.toModel.unpack = u at hpos hfinite ⊢
  rcases u with (_ | _) | _ | s | ⟨_ | _, m, e, hm⟩
  case infinity.positive => cases hfinite
  case finite.positive => exact ⟨m, e, hm, rfl⟩
  all_goals exact hpos.elim

/-- The number of a positive double is its mantissa at its exponent. -/
theorem number_of_unpack {x : Float} {m : ℕ} {e : ℤ} {hm : 0 < m}
    (h : x.toModel.unpack = .finite .positive m e hm) : number x = m * 2 ^ e := by
  rw [number, h, value]

end Order

end Projectivity.Double
