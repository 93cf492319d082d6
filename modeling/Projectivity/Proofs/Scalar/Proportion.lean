import Projectivity.Proofs.Scalar.Size

/-!
# Sizes up to a factor

A positive result is at most halved or doubled by rounding.  So products and quotients
of doubles that are known up to a power of two as a factor are known up to such a factor
again, as long as they stay in the range where doubles have all their digits.
-/

set_option autoImplicit false

namespace Projectivity.Double

section Ranges

/-- A number is between two powers of two. -/
structure Between (l h : ℕ) (q : ℚ) : Prop where
  ge : 2 ^ (-(l : ℤ)) ≤ q
  le : q ≤ 2 ^ h

variable {i j k l h : ℕ} {p q : ℚ}

/-- What is between powers of two is positive. -/
theorem Between.pos (hq : Between l h q) : 0 < q := (two_zpow_pos _).trans_le hq.ge

/-- What is between powers of two is between wider ones. -/
theorem Between.mono (hq : Between i j q) (hl : i ≤ l) (hh : j ≤ h) : Between l h q :=
  ⟨(zpow_le_zpow_right₀ one_le_two (by omega)).trans hq.ge,
    hq.le.trans (pow_le_pow_right₀ one_le_two hh)⟩

/-- A product is between the products of the powers of two. -/
theorem Between.mul (hp : Between i j p) (hq : Between l h q) : Between (i + l) (j + h) (p * q) := by
  refine ⟨?_, ?_⟩
  · rw [Nat.cast_add, neg_add, two_zpow_add]
    exact mul_le_mul hp.ge hq.ge (two_zpow_pos _).le hp.pos.le
  · rw [pow_add]
    exact mul_le_mul hp.le hq.le hq.pos.le (by positivity)

/-- A reciprocal is between the reciprocals of the powers of two. -/
theorem Between.inv (hq : Between l h q) : Between h l q⁻¹ := by
  refine ⟨?_, ?_⟩
  · rw [zpow_neg, zpow_natCast]
    exact inv_anti₀ hq.pos hq.le
  · have hge := inv_anti₀ (two_zpow_pos _) hq.ge
    rwa [zpow_neg, zpow_natCast, inv_inv] at hge

/-- A quotient is between the quotients of the powers of two. -/
theorem Between.div (hp : Between i j p) (hq : Between l h q) :
    Between (i + h) (j + l) (p / q) := by
  rw [div_eq_mul_inv]
  exact hp.mul hq.inv

end Ranges

section Near

/-- A double is finite, and a power of two as a factor takes it to a number. -/
structure Near (k : ℕ) (q : ℚ) (x : Float) : Prop where
  finite : x.isFinite = true
  ge : q ≤ 2 ^ k * number x
  le : number x ≤ 2 ^ k * q

variable {i j k l h : ℕ} {p q : ℚ} {x y : Float}

/-- A double near a positive number is positive. -/
theorem Near.number_pos (hx : Near k q x) (hq : 0 < q) : 0 < number x :=
  pos_of_mul_pos_right (hq.trans_le hx.ge) (by positivity)

/-- What is known up to a factor is at least as large as a power of two. -/
theorem Near.two_zpow_le {n : ℤ} (hx : Near k q x) (hq : 2 ^ n ≤ q) :
    2 ^ (n - k) ≤ |number x| := by
  refine le_trans ?_ (le_abs_self _)
  rw [sub_eq_add_neg, two_zpow_add, zpow_neg, zpow_natCast, ← div_eq_mul_inv,
    div_le_iff₀ (by positivity), mul_comm]
  exact hq.trans hx.ge

/-- What is known up to a factor is at most as large as a power of two. -/
theorem Near.within (hx : Near k q x) (hq : Between l h q) : Within (k + h) x := by
  refine ⟨hx.finite, ?_⟩
  rw [abs_of_pos (hx.number_pos hq.pos), pow_add]
  exact hx.le.trans (mul_le_mul_of_nonneg_left hq.le (by positivity))

/-- A finite double is near its own number. -/
theorem near_number (hx : x.isFinite = true) : Near 0 (number x) x :=
  ⟨hx, by rw [pow_zero, one_mul], by rw [pow_zero, one_mul]⟩

/-- Adding a zero leaves the size. -/
theorem Near.add_zero (hx : Near k q x) (hy : IsZero y) : Near k q (x + y) := by
  obtain ⟨hfinite, hnumber⟩ := number_add_zero hx.finite hy
  exact ⟨hfinite, by rw [hnumber]; exact hx.ge, by rw [hnumber]; exact hx.le⟩

/-- Subtracting a zero leaves the size. -/
theorem Near.sub_zero (hx : Near k q x) (hy : IsZero y) : Near k q (x - y) := by
  obtain ⟨hfinite, hnumber⟩ := number_sub_zero hx.finite hy
  exact ⟨hfinite, by rw [hnumber]; exact hx.ge, by rw [hnumber]; exact hx.le⟩

/-- What is rounded from a number of a known size is of this size up to one factor more. -/
theorem IsNearestTo.near {r : ℚ} (hx : IsNearestTo r x) (hq : Between l h q) (hlow : l + k ≤ 1022)
    (hhigh : h + k ≤ 1023) (hge : q ≤ 2 ^ k * r) (hle : r ≤ 2 ^ k * q) : Near (k + 1) q x := by
  have hpos : 0 < r := pos_of_mul_pos_right (hq.pos.trans_le hge) (by positivity)
  have hsmall : (2 : ℚ) ^ (-1022 : ℤ) ≤ q / 2 ^ k := by
    rw [le_div_iff₀ (by positivity), ← zpow_natCast, ← two_zpow_add]
    exact (zpow_le_zpow_right₀ one_le_two (by omega)).trans hq.ge
  have hlarge : 2 ^ k * q ≤ 2 ^ (1023 : ℤ) := by
    calc 2 ^ k * q ≤ 2 ^ k * 2 ^ h := mul_le_mul_of_nonneg_left hq.le (by positivity)
      _ = 2 ^ ((h + k : ℕ) : ℤ) := by rw [zpow_natCast, pow_add, mul_comm]
      _ ≤ 2 ^ (1023 : ℤ) := zpow_le_zpow_right₀ one_le_two (by omega)
  have hbelow : q / 2 ^ k ≤ r := by
    rw [div_le_iff₀ (by positivity), mul_comm]
    exact hge
  have hfinite : x.isFinite = true := by
    refine hx.isFinite (k := 1023) (by norm_num) le_rfl ?_
    rw [abs_of_pos hpos]
    exact hle.trans hlarge
  have hnonneg := hx.nonneg hpos.le
  have habs := abs_of_pos hpos
  have hhalf := hx.half_le_abs_number hsmall (hbelow.trans_eq habs.symm) hfinite
  have hdouble := hx.abs_number_le_two_mul (hsmall.trans (hbelow.trans hle)) (habs.trans_le hle)
  rw [abs_of_nonneg hnonneg] at hhalf hdouble
  refine ⟨hfinite, ?_, ?_⟩
  · rw [div_div, div_le_iff₀ (by positivity)] at hhalf
    rw [pow_succ]
    linarith
  · rw [pow_succ]
    linarith

/-- The product of two doubles whose sizes are known. -/
theorem Near.mul (hx : Near j p x) (hy : Near k q y) (hpq : Between l h (p * q)) (hp : 0 < p)
    (hlow : l + (j + k) ≤ 1022) (hhigh : h + (j + k) ≤ 1023) : Near (j + k + 1) (p * q) (x * y) := by
  have hq : 0 < q := pos_of_mul_pos_right hpq.pos hp.le
  have hxpos := hx.number_pos hp
  have hypos := hy.number_pos hq
  refine (isNearestTo_mul hx.finite hy.finite).near hpq hlow hhigh ?_ ?_
  · calc p * q ≤ (2 ^ j * number x) * (2 ^ k * number y) :=
          mul_le_mul hx.ge hy.ge hq.le (by positivity)
      _ = 2 ^ (j + k) * (number x * number y) := by rw [pow_add]; ring
  · calc number x * number y ≤ (2 ^ j * p) * (2 ^ k * q) :=
          mul_le_mul hx.le hy.le hypos.le (by positivity)
      _ = 2 ^ (j + k) * (p * q) := by rw [pow_add]; ring

/-- The quotient of two doubles whose sizes are known. -/
theorem Near.div (hx : Near j p x) (hy : Near k q y) (hpq : Between l h (p / q)) (hp : 0 < p)
    (hlow : l + (j + k) ≤ 1022) (hhigh : h + (j + k) ≤ 1023) : Near (j + k + 1) (p / q) (x / y) := by
  have hq : 0 < q := by
    have hpos := hpq.pos
    rw [div_eq_mul_inv] at hpos
    exact inv_pos.mp (pos_of_mul_pos_right hpos hp.le)
  have hxpos := hx.number_pos hp
  have hypos := hy.number_pos hq
  refine (isNearestTo_div hx.finite hy.finite hypos.ne').near hpq hlow hhigh ?_ ?_
  · rw [div_le_iff₀ hq]
    calc p ≤ 2 ^ j * number x := hx.ge
      _ = 2 ^ j * (number x / number y) * number y := by field_simp
      _ ≤ 2 ^ j * (number x / number y) * (2 ^ k * q) :=
          mul_le_mul_of_nonneg_left hy.le (by positivity)
      _ = 2 ^ (j + k) * (number x / number y) * q := by rw [pow_add]; ring
  · rw [div_le_iff₀ hypos]
    calc number x ≤ 2 ^ j * p := hx.le
      _ = 2 ^ j * (p / q) * q := by field_simp
      _ ≤ 2 ^ j * (p / q) * (2 ^ k * number y) :=
          mul_le_mul_of_nonneg_left hy.ge (by positivity)
      _ = 2 ^ (j + k) * (p / q) * number y := by rw [pow_add]; ring

end Near

end Projectivity.Double
