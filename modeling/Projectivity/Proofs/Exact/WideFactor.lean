import Projectivity.Proofs.Exact.Projection
import Projectivity.Proofs.Exact.WideMatrix

/-!
# Factors of wide scalars

A product with a real number other than zero distributes over sums, special values
included, and it cancels in quotients and in comparisons.  So a transform with special
values is determined up to a factor as a real one is: its images, its inverse and
whether it counts as singular do not depend on the factor.
-/

set_option autoImplicit false

namespace Projectivity

namespace Wide

section Sign

variable {x y : ℝ}

/-- The infinite value of a positive number is above. -/
theorem infinite_of_pos (hx : 0 < x) : infinite x = above := if_pos hx

/-- The infinite value of a negative number is below. -/
theorem infinite_of_neg (hx : x < 0) : infinite x = below :=
  (if_neg hx.not_gt).trans (if_pos hx)

/-- The infinite value of zero is undefined. -/
theorem infinite_zero : infinite 0 = undefined := by
  simp [infinite]

/-- A positive factor does not change the infinite value. -/
theorem infinite_mul_of_pos (hx : 0 < x) : infinite (x * y) = infinite y := by
  have hneg : x * y < 0 ↔ y < 0 := by
    rw [← not_le, ← not_le, mul_nonneg_iff_of_pos_left hx]
  simp only [infinite, mul_pos_iff_of_pos_left hx, hneg]

variable (x y)

/-- Only the sign of a number counts for the infinite value. -/
theorem infinite_direction_infinite :
    infinite ((infinite x).direction * y) = infinite (x * y) := by
  rcases lt_trichotomy x 0 with hx | rfl | hx
  · rw [infinite_of_neg hx, ← neg_mul_neg x y, infinite_mul_of_pos (neg_pos.mpr hx)]
    exact congrArg infinite (neg_one_mul y)
  · rw [infinite_zero, zero_mul]
    exact congrArg infinite (zero_mul y)
  · rw [infinite_of_pos hx, infinite_mul_of_pos hx]
    exact congrArg infinite (one_mul y)

end Sign

section Product

variable (a b c : Wide)

/-- A product with a special value has the product of the signs. -/
theorem mul_eq_infinite {a b : Wide} (h : (Scalar.isFinite a && Scalar.isFinite b) = false) :
    a * b = infinite (a.direction * b.direction) := by
  cases a <;> cases b
  case real.real => cases h
  all_goals rfl

/-- The sign of a product is the product of the signs. -/
theorem infinite_direction_mul (y : ℝ) :
    infinite ((a * b).direction * y) = infinite (a.direction * b.direction * y) := by
  cases h : Scalar.isFinite a && Scalar.isFinite b with
  | false => rw [mul_eq_infinite h, infinite_direction_infinite]
  | true =>
    obtain ⟨ha, hb⟩ := Bool.and_eq_true_iff.mp h
    obtain ⟨x, rfl⟩ := exists_eq_real ha
    obtain ⟨y, rfl⟩ := exists_eq_real hb
    rfl

/-- The order of factors does not matter. -/
protected theorem mul_comm : a * b = b * a := by
  cases a <;> cases b
  case real.real x y => exact congrArg real (mul_comm x y)
  all_goals exact congrArg infinite (mul_comm _ _)

/-- The product of three values does not depend on the brackets. -/
protected theorem mul_assoc : a * b * c = a * (b * c) := by
  cases h : Scalar.isFinite a && Scalar.isFinite b && Scalar.isFinite c with
  | false =>
    have hleft : (Scalar.isFinite (a * b) && Scalar.isFinite c) = false := by
      rw [isFinite_mul, h]
    have hright : (Scalar.isFinite a && Scalar.isFinite (b * c)) = false := by
      rw [isFinite_mul, ← Bool.and_assoc, h]
    rw [mul_eq_infinite hleft, mul_eq_infinite hright, infinite_direction_mul,
      mul_comm a.direction (b * c).direction, infinite_direction_mul, mul_comm _ a.direction,
      mul_assoc]
  | true =>
    simp only [Bool.and_eq_true] at h
    obtain ⟨⟨ha, hb⟩, hc⟩ := h
    obtain ⟨x, rfl⟩ := exists_eq_real ha
    obtain ⟨y, rfl⟩ := exists_eq_real hb
    obtain ⟨z, rfl⟩ := exists_eq_real hc
    exact congrArg real (mul_assoc x y z)

/-- The first two of three factors can be exchanged. -/
protected theorem mul_left_comm : a * (b * c) = b * (a * c) := by
  rw [← Wide.mul_assoc, ← Wide.mul_assoc, Wide.mul_comm a b]

/-- The factors of two products can be exchanged. -/
protected theorem mul_mul_mul_comm (d : Wide) : a * b * (c * d) = a * c * (b * d) := by
  rw [Wide.mul_assoc, Wide.mul_left_comm b, Wide.mul_assoc]

end Product

section Factor

variable {k : ℝ} (a b : Wide)

/-- A multiple of the value above everything has the sign of the factor. -/
theorem real_mul_above : real k * above = infinite k := congrArg infinite (mul_one k)

/-- A multiple of the value below everything has the opposite sign. -/
theorem real_mul_below : real k * below = infinite (-k) := congrArg infinite (mul_neg_one k)

/-- A multiple of the undefined value is undefined. -/
theorem real_mul_undefined : real k * undefined = undefined :=
  (congrArg infinite (mul_zero k)).trans infinite_zero

/-- A positive multiple of the value above everything is this value. -/
theorem real_mul_above_of_pos (hk : 0 < k) : real k * above = above :=
  real_mul_above.trans (infinite_of_pos hk)

/-- A positive multiple of the value below everything is this value. -/
theorem real_mul_below_of_pos (hk : 0 < k) : real k * below = below :=
  real_mul_below.trans (infinite_of_neg (neg_lt_zero.mpr hk))

/-- The factor one changes no value. -/
theorem one_mul_eq : real 1 * a = a := by
  cases a with
  | real x => exact congrArg real (one_mul x)
  | above => exact real_mul_above_of_pos one_pos
  | below => exact real_mul_below_of_pos one_pos
  | undefined => exact real_mul_undefined

/-- A factor other than zero keeps the special values or exchanges the infinite ones. -/
theorem real_mul_special (hk : k ≠ 0) :
    (real k * above = above ∧ real k * below = below) ∨
      (real k * above = below ∧ real k * below = above) := by
  rcases hk.lt_or_gt with hneg | hpos
  · rw [real_mul_above, real_mul_below]
    exact Or.inr ⟨infinite_of_neg hneg, infinite_of_pos (neg_pos.mpr hneg)⟩
  · exact Or.inl ⟨real_mul_above_of_pos hpos, real_mul_below_of_pos hpos⟩

/-- A real factor other than zero distributes over a sum. -/
theorem real_mul_add (hk : k ≠ 0) : real k * (a + b) = real k * a + real k * b := by
  cases a <;> cases b
  case real.real x y => exact congrArg real (mul_add k x y)
  -- Of a sum with a special value only that value counts, and the factor respects it.
  all_goals
    obtain ⟨habove, hbelow⟩ | ⟨habove, hbelow⟩ := real_mul_special hk
    all_goals
      simp only [habove, hbelow, real_mul_undefined, real_mul]
      first
        | exact habove
        | exact hbelow
        | exact real_mul_undefined

/-- The size of a multiple is multiplied by the size of the factor. -/
theorem abs_real_mul (hk : k ≠ 0) : Scalar.abs (real k * a) = real |k| * Scalar.abs a := by
  have habs : real |k| * above = above := real_mul_above_of_pos (abs_pos.mpr hk)
  cases a with
  | real x => exact congrArg real (abs_mul k x)
  | undefined =>
    rw [real_mul_undefined]
    exact real_mul_undefined.symm
  | above | below =>
    obtain ⟨habove, hbelow⟩ | ⟨habove, hbelow⟩ := real_mul_special hk
    all_goals
      simp only [habove, hbelow]
      exact habs.symm

/-- A positive factor keeps the strict order. -/
theorem real_mul_lt_real_mul (hk : 0 < k) : real k * a < real k * b ↔ a < b := by
  cases a <;> cases b
  case real.real x y => exact mul_lt_mul_iff_right₀ hk
  all_goals
    simp only [real_mul_above_of_pos hk, real_mul_below_of_pos hk, real_mul_undefined,
      real_mul] <;> exact Iff.rfl

/-- A special value divided by a real number has the product of the signs. -/
theorem special_div_real {a : Wide} (ha : Scalar.isFinite a = false) {y : ℝ} (hy : y ≠ 0) :
    a / real y = infinite (a.direction * y) := by
  cases a with
  | real x => cases ha
  | above => exact if_neg hy
  | below => exact if_neg hy
  | undefined => exact if_neg hy

/-- A factor cancels in a quotient, unless that divides by zero. -/
theorem real_mul_div_real_mul (hk : k ≠ 0) {b : Wide} (hb : b ≠ real 0) :
    real k * a / (real k * b) = a / b := by
  cases b with
  | real y =>
    have hy : y ≠ 0 := fun hzero => hb (congrArg real hzero)
    rw [real_mul]
    cases ha : Scalar.isFinite a with
    | true =>
      obtain ⟨x, rfl⟩ := exists_eq_real ha
      rw [real_mul, real_div _ (mul_ne_zero hk hy), real_div _ hy, mul_div_mul_left _ _ hk]
    | false =>
      have hproduct : Scalar.isFinite (real k * a) = false := by
        rw [isFinite_mul, ha, Bool.and_false]
      have hfactor : k * a.direction * (k * y) = k * k * (a.direction * y) := by ring
      rw [special_div_real hproduct (mul_ne_zero hk hy), special_div_real ha hy,
        infinite_direction_mul]
      exact (congrArg infinite hfactor).trans (infinite_mul_of_pos (mul_self_pos.mpr hk))
  | above | below | undefined =>
    cases a
    all_goals
      obtain ⟨habove, hbelow⟩ | ⟨habove, hbelow⟩ := real_mul_special hk
      all_goals
        simp only [habove, hbelow, real_mul_undefined, real_mul] <;> rfl

/-- A real factor other than zero distributes over the sum of a list. -/
theorem sum_map_real_mul (hk : k ≠ 0) (l : List Wide) :
    (l.map (real k * ·)).sum = real k * l.sum := by
  induction l with
  | nil => exact congrArg real (mul_zero k).symm
  | cons a rest ih => rw [List.map_cons, List.sum_cons, ih, List.sum_cons, real_mul_add _ _ hk]

/-- The square root of a negative number is undefined. -/
theorem sqrt_of_neg {x : ℝ} (hx : x < 0) : Scalar.sqrt (real x) = undefined := if_pos hx

/-- The square of a factor is a factor of the square root. -/
theorem sqrt_real_mul (hk : k ≠ 0) :
    Scalar.sqrt (real (k ^ 2) * a) = real |k| * Scalar.sqrt a := by
  have hsquare : 0 < k ^ 2 := by positivity
  cases a with
  | real x =>
    rw [real_mul]
    rcases lt_or_ge x 0 with hx | hx
    · rw [sqrt_of_neg hx, sqrt_of_neg (mul_neg_of_pos_of_neg hsquare hx), real_mul_undefined]
    · rw [sqrt_real hx, sqrt_real (mul_nonneg hsquare.le hx), real_mul, Real.sqrt_mul hsquare.le,
        Real.sqrt_sq_eq_abs]
  | above =>
    rw [real_mul_above_of_pos hsquare]
    exact (real_mul_above_of_pos (abs_pos.mpr hk)).symm
  | below =>
    rw [real_mul_below_of_pos hsquare]
    exact real_mul_undefined.symm
  | undefined =>
    rw [real_mul_undefined]
    exact real_mul_undefined.symm

/-- A part of a square root is not negative. -/
theorem not_real_mul_sqrt_neg {t : ℝ} (ht : 0 ≤ t) : ¬ real t * Scalar.sqrt a < real 0 := by
  have hundefined : ¬ real t * undefined < real 0 := by
    rw [real_mul_undefined]
    exact id
  cases a with
  | real x =>
    rcases lt_or_ge x 0 with hx | hx
    · rw [sqrt_of_neg hx]
      exact hundefined
    · rw [sqrt_real hx, real_mul, real_lt_real, not_lt]
      positivity
  | above =>
    show ¬ real t * above < real 0
    rw [real_mul_above]
    rcases ht.eq_or_lt with rfl | hpos
    · rw [infinite_zero]
      exact id
    · rw [infinite_of_pos hpos]
      exact id
  | below => exact hundefined
  | undefined => exact hundefined

/-- A real factor other than zero is a factor of the norm. -/
theorem norm_map_real_mul (hk : k ≠ 0) (l : List Wide) :
    Scalar.norm (l.map (real k * ·)) = real |k| * Scalar.norm l := by
  have hsquare : ∀ a : Wide, Scalar.square (real k * a) = real (k ^ 2) * Scalar.square a := by
    intro a
    unfold Scalar.square
    rw [Wide.mul_mul_mul_comm, real_mul, pow_two]
  have hsquares : (l.map (real k * ·)).map Scalar.square =
      (l.map Scalar.square).map (real (k ^ 2) * ·) := by
    rw [List.map_map, List.map_map]
    exact List.map_congr_left fun a _ => hsquare a
  unfold Scalar.norm
  rw [hsquares, sum_map_real_mul (pow_ne_zero 2 hk), sqrt_real_mul _ hk]

end Factor

end Wide

open Wide (real)

namespace Matrix3

/-- A matrix multiplied by a real factor. -/
noncomputable def stretch (k : ℝ) (A : Matrix3 Wide) : Matrix3 Wide := A.map (real k * ·)

variable {k : ℝ} (A : Matrix3 Wide)

/-- A multiple of a real matrix is what it is called. -/
theorem widen_scale (A : Matrix3 ℝ) (k : ℝ) : (A.scale k).widen = A.widen.stretch k := rfl

/-- Two factors of all entries are one, their product. -/
theorem stretch_stretch (j k : ℝ) : (A.stretch k).stretch j = A.stretch (j * k) := by
  simp only [stretch, map, ← Wide.mul_assoc, Wide.real_mul]

/-- The factor one changes no entries. -/
theorem stretch_one : A.stretch 1 = A := by
  simp only [stretch, map, Wide.one_mul_eq]

/-- The norm of a stretched matrix is multiplied by the size of the factor. -/
theorem norm_stretch (hk : k ≠ 0) : (A.stretch k).norm = real |k| * A.norm := by
  unfold norm stretch
  rw [entries_map, Wide.norm_map_real_mul hk]

/-- A factor of all entries is a factor of the image. -/
theorem stretch_act (hk : k ≠ 0) (h : Homogeneous Wide) : (A.stretch k).act h =
    ⟨real k * (A.act h).x, real k * (A.act h).y, real k * (A.act h).w⟩ := by
  simp only [stretch, map, act, Wide.mul_assoc, Wide.real_mul_add _ _ hk]

/-- The image of a point does not depend on the factor of the transform, and neither does the test
for infinity. -/
theorem project?_stretch (hk : k ≠ 0) {tolerance : ℝ} (ht : 0 ≤ tolerance) (p : Point Wide) :
    (A.stretch k).project? (real tolerance) p = A.project? (real tolerance) p := by
  have hbound : ∀ w : Wide, real tolerance * (A.stretch k).norm < Scalar.abs (real k * w) ↔
      real tolerance * A.norm < Scalar.abs w := by
    intro w
    rw [A.norm_stretch hk, Wide.abs_real_mul w hk, Wide.mul_left_comm,
      Wide.real_mul_lt_real_mul _ _ (abs_pos.mpr hk)]
  have hw : real tolerance * A.norm < Scalar.abs (A.apply p).w → (A.apply p).w ≠ real 0 := by
    intro hfinite hzero
    rw [hzero, Wide.abs_real, abs_zero] at hfinite
    exact Wide.not_real_mul_sqrt_neg _ ht hfinite
  unfold project? apply at *
  simp only [A.stretch_act hk, hbound, Homogeneous.dehomogenize]
  split
  · rename_i hfinite
    rw [Wide.real_mul_div_real_mul _ hk (hw hfinite), Wide.real_mul_div_real_mul _ hk (hw hfinite)]
  · rfl

section Regular

variable [Spectral Wide] [Spectral.WideExact] {tolerance : ℝ}

variable {A} in
/-- A multiple of a matrix that counts as non-singular does, too. -/
theorem isNonSingular_stretch_of (hk : k ≠ 0) (h : A.isNonSingular (real tolerance) = true) :
    (A.stretch k).isNonSingular (real tolerance) = true := by
  obtain ⟨B, rfl, hB⟩ := exists_regular h
  rw [← widen_scale, isNonSingular_widen_iff]
  exact hB.scale hk

/-- Whether a matrix counts as non-singular does not depend on its factor. -/
theorem isNonSingular_stretch (hk : k ≠ 0) :
    (A.stretch k).isNonSingular (real tolerance) = A.isNonSingular (real tolerance) := by
  refine Bool.eq_iff_iff.mpr ⟨fun h => ?_, isNonSingular_stretch_of hk⟩
  have hback := isNonSingular_stretch_of (inv_ne_zero hk) h
  rwa [stretch_stretch, inv_mul_cancel₀ hk, stretch_one] at hback

variable {A} in
/-- The inverse of a stretched matrix is stretched by the reciprocal. -/
theorem inverse_stretch (hk : k ≠ 0) (ht : 0 ≤ tolerance)
    (h : A.isNonSingular (real tolerance) = true) :
    (A.stretch k).inverse = A.inverse.stretch k⁻¹ := by
  obtain ⟨B, rfl, hB⟩ := exists_regular h
  have hdet := hB.det_ne_zero ht
  have hscaled := (hB.scale hk).det_ne_zero ht
  rw [← widen_scale, widen_inverse hscaled, widen_inverse hdet, inverse_scale hk hdet, widen_scale]

end Regular

/-- Scaling to norm one forgets a positive factor. -/
theorem canonicalScale_scale {A : Matrix3 ℝ} (hk : 0 < k) (hdet : A.det ≠ 0) :
    (A.scale k).canonicalScale = A.canonicalScale := by
  have hnorm := (norm_pos_of_det_ne_zero hdet).ne'
  have hsame : (A.scale k).scaleDown (A.scale k).norm = A.scaleDown A.norm := by
    rw [norm_scale, abs_of_pos hk, scaleDown_eq, scaleDown_eq, scale_scale, mul_inv,
      mul_right_comm, inv_mul_cancel₀ hk.ne', one_mul]
  unfold canonicalScale
  rw [hsame]

end Matrix3

end Projectivity
