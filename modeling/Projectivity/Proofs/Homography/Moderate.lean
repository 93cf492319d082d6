import Projectivity.Homography.Normalization
import Projectivity.Proofs.Scalar.Proportion

/-!
# Normalization in doubles

For coordinates that are far below the largest doubles, the normalizing similarity has
a scale between powers of two that do not depend on the number of points, and so has
its inverse.  Points that are not finite have no normalizing similarity.
-/

set_option autoImplicit false

namespace Projectivity

open Double

/-- The coordinates of a point, if they are finite, are at most a power of two that is beyond
everything that is measured and far below the largest doubles. -/
structure Point.Moderate (p : Point Float) : Prop where
  x_le : p.x.isFinite = true → |number p.x| ≤ 2 ^ 200
  y_le : p.y.isFinite = true → |number p.y| ≤ 2 ^ 200

namespace Normalization

variable {points : List (Point Float)} {T : Matrix3 Float}

/-- A scale and a center that moderate points can be normalized with. -/
structure Moderate (scale : Float) (center : Point Float) : Prop where
  finite : scale.isFinite = true
  between : Between 202 41 (number scale)
  x_within : Within 200 center.x
  y_within : Within 200 center.y

/-- The number of two. -/
theorem number_two : number ((2 : ℕ) : Float) = 2 := by
  have hnumber := number_of_unpack unpack_two
  exact hnumber.trans (by norm_num)

/-- The bound for coincidence is not next to zero. -/
theorem le_number_coincidenceBound : 2 ^ (-40 : ℤ) ≤ number (coincidenceBound : Float) := by
  have hunpack : (coincidenceBound : Float).toModel.unpack =
      .finite .positive 4951760157141521 (-92) (by norm_num) := rfl
  rw [number_of_unpack hunpack]
  norm_num

/-- The mean distance that points are normalized to is between one and two. -/
theorem sqrt_two_bounds : Within 1 (Scalar.sqrt ((2 : ℕ) : Float)) ∧
    1 ≤ number (Scalar.sqrt ((2 : ℕ) : Float)) := by
  have hfinite : ((2 : ℕ) : Float).isFinite = true := rfl
  have hnonneg : (0 : Float) ≤ ((2 : ℕ) : Float) := by
    rw [le_iff_number rfl rfl, number_zero, number_two]
    norm_num
  have hwithin : Within (2 * 1) ((2 : ℕ) : Float) := ⟨hfinite, by rw [number_two]; norm_num⟩
  have hlow := le_number_sqrt (k := 0) hfinite (by norm_num) (by norm_num)
    (by rw [number_two]; norm_num)
  exact ⟨hwithin.sqrt hnonneg (by norm_num), by simpa using hlow⟩

section Distances

variable {p c : Point Float}

/-- A point whose distance from another one is finite has finite coordinates. -/
theorem isFinite_of_length (h : (p.sub c).length.isFinite = true) :
    p.x.isFinite = true ∧ p.y.isFinite = true := by
  obtain ⟨hx, hy⟩ := isFinite_of_add (isFinite_of_sqrt h)
  exact ⟨(isFinite_of_sub (isFinite_of_mul hx).1).1, (isFinite_of_sub (isFinite_of_mul hy).1).1⟩

/-- The distance of two moderate points. -/
theorem within_length (hp : Within 200 p.x ∧ Within 200 p.y) (hc : Within 200 c.x ∧ Within 200 c.y) :
    Within 202 (p.sub c).length := by
  have hx : Within 201 (p.sub c).x := hp.1.sub hc.1 (by norm_num)
  have hy : Within 201 (p.sub c).y := hp.2.sub hc.2 (by norm_num)
  have hsum : Within 403 (p.sub c).squaredLength :=
    (hx.square (by norm_num)).add (hy.square (by norm_num)) (by norm_num)
  have hnonneg : 0 ≤ (p.sub c).squaredLength :=
    Scalar.Ordered.add_nonneg (square_nonneg (isNaN_of_isFinite hx.finite))
      (square_nonneg (isNaN_of_isFinite hy.finite))
  exact Within.sqrt (k := 202) (hsum.mono (by norm_num)) hnonneg (by norm_num)

end Distances

/-- The scale that a moderate distance is normalized with. -/
theorem scale_between {distance : Float} (hlow : 2 ^ (-40 : ℤ) ≤ number distance)
    (hhigh : Within 202 distance) :
    (Scalar.sqrt ((2 : ℕ) : Float) / distance).isFinite = true ∧
      Between 202 41 (number (Scalar.sqrt ((2 : ℕ) : Float) / distance)) := by
  have hpos : 0 < number distance := (two_zpow_pos _).trans_le hlow
  obtain ⟨htwo, hone⟩ := sqrt_two_bounds
  have hscale : Within 41 (Scalar.sqrt ((2 : ℕ) : Float) / distance) :=
    htwo.div hhigh.finite (hlow.trans (le_abs_self _)) (by norm_num) (by norm_num)
  have hquotient := isNearestTo_div htwo.finite hhigh.finite hpos.ne'
  have hexact : 2 ^ (-202 : ℤ) ≤ number (Scalar.sqrt ((2 : ℕ) : Float)) / number distance := by
    rw [le_div_iff₀ hpos]
    calc (2 : ℚ) ^ (-202 : ℤ) * number distance ≤ 2 ^ (-202 : ℤ) * 2 ^ 202 :=
          mul_le_mul_of_nonneg_left (le_of_abs_le hhigh.le) (two_zpow_pos _).le
      _ = 1 := by norm_num
      _ ≤ number (Scalar.sqrt ((2 : ℕ) : Float)) := hone
  have hsize := hquotient.le_abs_number (k := -202) (by norm_num) (by norm_num)
    (hexact.trans (le_abs_self _))
  rw [abs_of_nonneg (hquotient.nonneg ((two_zpow_pos _).le.trans hexact))] at hsize
  exact ⟨hscale.finite, hsize, le_of_abs_le hscale.le⟩

/-- The normalizing similarity of moderate points has a moderate scale and center. -/
theorem exists_moderate (hmoderate : ∀ p ∈ points, p.Moderate) (hne : points ≠ [])
    (h : transform? points = some T) :
    ∃ scale center, Moderate scale center ∧ T = similarity scale center := by
  unfold transform? at h
  simp only [Option.ite_none_right_eq_some, Option.some.injEq, Bool.and_eq_true,
    Bool.not_eq_true', decide_eq_false_iff_not] at h
  obtain ⟨⟨hfinite, hbound⟩, rfl⟩ := h
  change (meanDistance points (Point.centroid points)).isFinite = true at hfinite
  -- All points are finite, since their mean distance is.
  have hwithin : ∀ p ∈ points, Within 200 p.x ∧ Within 200 p.y := fun p hp => by
    obtain ⟨hx, hy⟩ := isFinite_of_length (isFinite_of_mean hfinite _ (List.mem_map_of_mem hp))
    exact ⟨⟨hx, (hmoderate p hp).x_le hx⟩, ⟨hy, (hmoderate p hp).y_le hy⟩⟩
  have hx : Within 200 (Point.centroid points).x :=
    Within.mean (List.forall_mem_map.mpr fun p hp => (hwithin p hp).1) (by simpa using hne)
      (by norm_num)
  have hy : Within 200 (Point.centroid points).y :=
    Within.mean (List.forall_mem_map.mpr fun p hp => (hwithin p hp).2) (by simpa using hne)
      (by norm_num)
  have hdistance : Within 202 (meanDistance points (Point.centroid points)) :=
    Within.mean (List.forall_mem_map.mpr fun p hp => within_length (hwithin p hp) ⟨hx, hy⟩)
      (by simpa using hne) (by norm_num)
  generalize meanDistance points (Point.centroid points) = distance at *
  have hlow : 2 ^ (-40 : ℤ) ≤ number distance := by
    rw [lt_iff_number (isNaN_of_isFinite hfinite) rfl, not_lt] at hbound
    exact le_number_coincidenceBound.trans hbound
  obtain ⟨hscale, hbetween⟩ := scale_between hlow hdistance
  exact ⟨_, _, ⟨hscale, hbetween, hx, hy⟩, rfl⟩

section Inverse

variable {scale : Float} {center : Point Float}

/-- The entries of a similarity divided by the largest of them: two scales, a last entry, a
translation and zeros. -/
structure Scaled (u w : ℚ) (B : Matrix3 Float) : Prop where
  m11 : Near 1 u B.m11
  m22 : Near 1 u B.m22
  m33 : Near 1 w B.m33
  m13 : Within 0 B.m13
  m23 : Within 0 B.m23
  m12 : IsZero B.m12
  m21 : IsZero B.m21
  m31 : IsZero B.m31
  m32 : IsZero B.m32

/-- What the inverse of a similarity with a given scale is like. -/
structure Denormalizing (t : ℚ) (A : Matrix3 Float) : Prop where
  m11 : Near 10 t⁻¹ A.m11
  m22 : Near 10 t⁻¹ A.m22
  m33 : Near 10 1 A.m33
  m13 : Within 210 A.m13
  m23 : Within 210 A.m23
  m12 : IsZero A.m12
  m21 : IsZero A.m21
  m31 : IsZero A.m31
  m32 : IsZero A.m32

/-- A translation by a moderate center is at most a power of two as large as the scale. -/
theorem translation_bounds (h : Moderate scale center) {x : Float} (hx : Within 200 x) :
    (-scale * x).isFinite = true ∧ |number (-scale * x)| ≤ 2 ^ 202 * number scale := by
  have hscale : Within 41 (-scale) :=
    Within.neg ⟨h.finite, by rw [abs_of_pos h.between.pos]; exact h.between.le⟩
  have hproduct := isNearestTo_mul hscale.finite hx.finite
  have hexact : |number (-scale) * number x| ≤ 2 ^ 201 * number scale := by
    rw [abs_mul, number_neg, abs_neg, abs_of_pos h.between.pos, mul_comm]
    have hle : |number x| ≤ 2 ^ 201 := hx.le.trans (pow_le_pow_right₀ one_le_two (by norm_num))
    exact mul_le_mul_of_nonneg_right hle h.between.pos.le
  have hlow : (2 : ℚ) ^ (-1022 : ℤ) ≤ 2 ^ 201 * number scale := by
    calc (2 : ℚ) ^ (-1022 : ℤ) ≤ 2 ^ (-202 : ℤ) := zpow_le_zpow_right₀ one_le_two (by norm_num)
      _ ≤ number scale := h.between.ge
      _ ≤ 2 ^ 201 * number scale := le_mul_of_one_le_left h.between.pos.le (by norm_num)
  refine ⟨(hscale.mul hx (by norm_num)).finite, ?_⟩
  have hdouble := hproduct.abs_number_le_two_mul hlow hexact
  rwa [← mul_assoc, ← pow_succ'] at hdouble

/-- The entries of a moderate similarity, against its scale. -/
theorem entries_bounds (h : Moderate scale center) : ∀ x ∈ (similarity scale center).entries,
    x.isFinite = true ∧ |number x| ≤ 2 ^ 202 * number scale := by
  have hpos := h.between.pos
  have hone : (1 : ℚ) ≤ 2 ^ 202 * number scale := by
    calc (1 : ℚ) = 2 ^ 202 * 2 ^ (-202 : ℤ) := by norm_num
      _ ≤ 2 ^ 202 * number scale := mul_le_mul_of_nonneg_left h.between.ge (by positivity)
  have hzero : (0 : Float).isFinite = true ∧ |number 0| ≤ 2 ^ 202 * number scale := by
    refine ⟨rfl, ?_⟩
    rw [number_zero, abs_zero]
    exact mul_nonneg (by norm_num) hpos.le
  have hscale : scale.isFinite = true ∧ |number scale| ≤ 2 ^ 202 * number scale := by
    refine ⟨h.finite, ?_⟩
    rw [abs_of_pos hpos]
    exact le_mul_of_one_le_left hpos.le (by norm_num)
  have hlast : (1 : Float).isFinite = true ∧ |number 1| ≤ 2 ^ 202 * number scale :=
    ⟨rfl, by rwa [number_one, abs_one]⟩
  simp only [similarity, Matrix3.entries, List.forall_mem_cons, List.not_mem_nil, false_implies,
    implies_true, and_true]
  exact ⟨hscale, hzero, translation_bounds h h.x_within, hzero, hscale,
    translation_bounds h h.y_within, hzero, hzero, hlast⟩

/-- The largest entry of a moderate similarity, against its scale. -/
theorem largest_bounds (h : Moderate scale center) :
    let size := Scalar.largestAbs (similarity scale center).entries
    size.isFinite = true ∧ 1 ≤ number size ∧ number scale ≤ number size ∧
      number size ≤ 2 ^ 202 * number scale := by
  intro size
  have hfinite : ∀ x ∈ (similarity scale center).entries, x.isFinite = true :=
    fun x hx => (entries_bounds h x hx).1
  obtain ⟨hsize, hle⟩ := largestAbs_le_iff hfinite
  refine ⟨hsize, ?_, ?_, ?_⟩
  · have hlast := abs_number_le_largestAbs hfinite (x := 1) (List.mem_of_getElem? (i := 8) rfl)
    rwa [number_one, abs_one] at hlast
  · have hscale := abs_number_le_largestAbs hfinite (x := scale)
      (List.mem_of_getElem? (i := 0) rfl)
    rwa [abs_of_pos h.between.pos] at hscale
  · exact (hle _ (mul_nonneg (by norm_num) h.between.pos.le)).mpr
      fun x hx => (entries_bounds h x hx).2

/-- The scale and one, divided by the largest entry of a moderate similarity. -/
theorem ratios_between (h : Moderate scale center) :
    let size := Scalar.largestAbs (similarity scale center).entries
    Between 202 0 (number scale / number size) ∧ Between 243 0 (1 / number size) := by
  intro size
  obtain ⟨-, hone, hscale, hle⟩ := largest_bounds h
  have hpos : 0 < number size := zero_lt_one.trans_le hone
  refine ⟨⟨?_, ?_⟩, ⟨?_, ?_⟩⟩
  · rw [le_div_iff₀ hpos]
    calc (2 : ℚ) ^ (-((202 : ℕ) : ℤ)) * number size ≤
          2 ^ (-((202 : ℕ) : ℤ)) * (2 ^ 202 * number scale) :=
          mul_le_mul_of_nonneg_left hle (two_zpow_pos _).le
      _ = number scale := by rw [← mul_assoc]; norm_num
  · rw [div_le_iff₀ hpos, pow_zero, one_mul]
    exact hscale
  · rw [le_div_iff₀ hpos]
    calc (2 : ℚ) ^ (-((243 : ℕ) : ℤ)) * number size ≤
          2 ^ (-((243 : ℕ) : ℤ)) * (2 ^ 202 * 2 ^ 41) :=
          mul_le_mul_of_nonneg_left (hle.trans (mul_le_mul_of_nonneg_left h.between.le
            (by norm_num))) (two_zpow_pos _).le
      _ = 1 := by norm_num
  · rw [div_le_iff₀ hpos, pow_zero, one_mul]
    exact hone

/-- The entries of a moderate similarity divided by the largest one. -/
theorem scaled_scaleDown (h : Moderate scale center) :
    let size := Scalar.largestAbs (similarity scale center).entries
    Scaled (number scale / number size) (1 / number size)
      ((similarity scale center).scaleDown size) := by
  intro size
  obtain ⟨hsize, hone, -, -⟩ := largest_bounds h
  obtain ⟨hu, hw⟩ := ratios_between h
  have hpos : 0 < number size := zero_lt_one.trans_le hone
  have hzero : IsZero (0 / size) := isZero_zero.div hsize hpos.ne'
  have hscale : Near 1 (number scale / number size) (scale / size) :=
    (near_number h.finite).div (near_number hsize) hu h.between.pos (by norm_num) (by norm_num)
  have hlast : Near 1 (1 / number size) (1 / size) := by
    have hnear : Near 0 1 (1 : Float) := number_one ▸ near_number rfl
    exact hnear.div (near_number hsize) hw zero_lt_one (by norm_num) (by norm_num)
  have htranslation : ∀ x ∈ (similarity scale center).entries, Within 0 (x / size) := fun x hx => by
    have hfinite : ∀ x ∈ (similarity scale center).entries, x.isFinite = true :=
      fun x hx => (entries_bounds h x hx).1
    refine (isNearestTo_div (hfinite x hx) hsize hpos.ne').within (by norm_num) ?_
    rw [abs_div, abs_of_pos hpos, pow_zero, div_le_one hpos]
    exact abs_number_le_largestAbs hfinite hx
  exact ⟨hscale, hscale, hlast, htranslation _ (List.mem_of_getElem? (i := 2) rfl),
    htranslation _ (List.mem_of_getElem? (i := 5) rfl), hzero, hzero, hzero, hzero⟩

section Cofactors

variable {B : Matrix3 Float} {u w : ℚ}

/-- A product of a translation and a scale is at most about as large as the scale. -/
theorem abs_number_translation_le (hu : Between 202 0 u) {x s y : Float} (hx : Within 0 x)
    (hs : Near 1 u s) (hy : IsNearestTo (number x * number s) y) :
    y.isFinite = true ∧ |number y| ≤ 4 * u := by
  have hexact : |number x * number s| ≤ 2 * u := by
    rw [abs_mul, abs_of_pos (hs.number_pos hu.pos)]
    calc |number x| * number s ≤ 1 * (2 ^ 1 * u) :=
          mul_le_mul (hx.le.trans_eq (pow_zero 2)) hs.le (hs.number_pos hu.pos).le zero_le_one
      _ = 2 * u := by ring
  have hlow : (2 : ℚ) ^ (-1022 : ℤ) ≤ 2 * u := by
    calc (2 : ℚ) ^ (-1022 : ℤ) ≤ 2 ^ (-202 : ℤ) := zpow_le_zpow_right₀ one_le_two (by norm_num)
      _ ≤ u := hu.ge
      _ ≤ 2 * u := le_mul_of_one_le_left hu.pos.le (by norm_num)
  refine ⟨(hy.within (k := 1) (by norm_num) (hexact.trans ?_)).finite, ?_⟩
  · rw [pow_one]
    exact mul_le_of_le_one_right zero_le_two (hu.le.trans_eq (pow_zero 2))
  · calc |number y| ≤ 2 * (2 * u) := hy.abs_number_le_two_mul hlow hexact
      _ = 4 * u := by ring

/-- The determinant of a scaled similarity. -/
theorem Scaled.near_det (hB : Scaled u w B) (hu : Between 202 0 u) (hw : Between 243 0 w) :
    Near 5 (u * (u * w)) B.det := by
  have hproduct : Near 3 (u * w) (B.m22 * B.m33 - B.m23 * B.m32) :=
    (hB.m22.mul hB.m33 (hu.mul hw) hu.pos (by norm_num) (by norm_num)).sub_zero
      (IsZero.mul_right hB.m23.finite hB.m32)
  have hfirst : Near 5 (u * (u * w)) (B.m11 * (B.m22 * B.m33 - B.m23 * B.m32)) :=
    hB.m11.mul hproduct (hu.mul (hu.mul hw)) hu.pos (by norm_num) (by norm_num)
  have hsecond : IsZero (B.m12 * (B.m21 * B.m33 - B.m23 * B.m31)) :=
    hB.m12.mul_left ((hB.m21.mul_left hB.m33.finite).sub
      (IsZero.mul_right hB.m23.finite hB.m31)).finite
  have hthird : IsZero (B.m13 * (B.m21 * B.m32 - B.m22 * B.m31)) :=
    IsZero.mul_right hB.m13.finite ((hB.m21.mul_left hB.m32.finite).sub
      (IsZero.mul_right hB.m22.finite hB.m31))
  exact (hfirst.sub_zero hsecond).add_zero hthird

/-- What is about as large as the scale is divided by the determinant and the largest entry. -/
theorem within_translation {size det x : Float} (hsize : size.isFinite = true)
    (hsame : w * number size = 1) (hu : Between 202 0 u) (hw : Between 243 0 w)
    (hdet : Near 5 (u * (u * w)) det) (hx : x.isFinite = true) (hle : |number x| ≤ 4 * u) :
    Within 210 (x / det / size) := by
  have hpos : 0 < number size := pos_of_mul_pos_right (hsame ▸ zero_lt_one) hw.pos.le
  have hdetpos := hdet.number_pos (mul_pos hu.pos (mul_pos hu.pos hw.pos))
  have hexact : |number x / number det| ≤ 2 ^ 7 / (u * w) := by
    have huw := mul_pos hu.pos hw.pos
    rw [abs_div, abs_of_pos hdetpos, div_le_iff₀ hdetpos]
    calc |number x| ≤ 4 * u := hle
      _ = 2 ^ 7 / (u * w) * (u * (u * w) / 2 ^ 5) := by
        rw [mul_comm u (u * w), mul_div_assoc, ← mul_assoc, div_mul_cancel₀ _ huw.ne']
        ring
      _ ≤ 2 ^ 7 / (u * w) * number det := by
        refine mul_le_mul_of_nonneg_left ?_ (by positivity)
        rw [div_le_iff₀ (by positivity), mul_comm _ ((2 : ℚ) ^ 5)]
        exact hdet.ge
  have hbetween : Between 0 452 (2 ^ 7 / (u * w)) :=
    (Between.mono (i := 0) (j := 7) ⟨by norm_num, le_rfl⟩ (by norm_num) le_rfl).div (hu.mul hw)
  have hquotient := isNearestTo_div hx hdet.finite hdetpos.ne'
  have hfinite := (hquotient.within (k := 452) (by norm_num) (hexact.trans hbetween.le)).finite
  have hdouble := hquotient.abs_number_le_two_mul (le_trans
    (zpow_le_zpow_right₀ one_le_two (by norm_num)) hbetween.ge) hexact
  refine (isNearestTo_div hfinite hsize hpos.ne').within (by norm_num) ?_
  rw [abs_div, abs_of_pos hpos, div_le_iff₀ hpos]
  have hinv := hu.inv.le
  calc |number (x / det)| ≤ 2 * (2 ^ 7 / (u * w)) := hdouble
    _ = 2 ^ 8 * u⁻¹ * (w * number size) / w := by
      have := hu.pos
      have := hw.pos
      rw [hsame]
      field_simp
    _ = 2 ^ 8 * u⁻¹ * number size := by
      have := hw.pos
      field_simp
    _ ≤ 2 ^ 8 * 2 ^ 202 * number size :=
      mul_le_mul_of_nonneg_right (mul_le_mul_of_nonneg_left hinv (by norm_num)) hpos.le
    _ = 2 ^ 210 * number size := by norm_num

/-- What is near a number is near its quotient when it is divided by the determinant and the largest
entry. -/
theorem near_cofactor {size det x : Float} {p d r q : ℚ} (hx : Near 3 p x) (hdet : Near 5 d det)
    (hsize : size.isFinite = true) (hp : 0 < p) (hfirst : p / d = r) (hr : Between 0 243 r)
    (hsecond : r / number size = q) (hq : Between 41 202 q) : Near 10 q (x / det / size) := by
  have hquotient : Near 9 r (x / det) := by
    rw [← hfirst] at hr ⊢
    exact hx.div hdet hr hp (by norm_num) (by norm_num)
  have hrpos := hr.pos
  rw [← hsecond] at hq ⊢
  exact hquotient.div (near_number hsize) hq hrpos (by norm_num) (by norm_num)

/-- The matrix of cofactors, divided by the determinant and by the largest entry. -/
theorem Scaled.denormalizing {size : Float} {t : ℚ} (hB : Scaled u w B) (hu : Between 202 0 u)
    (hw : Between 243 0 w) (ht : Between 202 41 t) (hsize : size.isFinite = true)
    (hsame : w * number size = 1) (hscale : u * number size = t) :
    Denormalizing t ((B.adjugate.scaleDown B.det).scaleDown size) := by
  have hdet := hB.near_det hu hw
  have hupos := hu.pos
  have hwpos := hw.pos
  have hpos : 0 < number size := pos_of_mul_pos_right (hsame ▸ zero_lt_one) hwpos.le
  have hdetpos := hdet.number_pos (mul_pos hupos (mul_pos hupos hwpos))
  have hzero : ∀ {x : Float}, IsZero x → IsZero (x / B.det / size) := fun hx =>
    (hx.div hdet.finite hdetpos.ne').div hsize hpos.ne'
  have hdiagonal : ∀ {x : Float}, Near 3 (u * w) x → Near 10 t⁻¹ (x / B.det / size) := fun hx =>
    near_cofactor hx hdet hsize (mul_pos hupos hwpos) (by field_simp)
      (hu.inv.mono le_rfl (by norm_num)) (by rw [← hscale, mul_inv, div_eq_mul_inv]) ht.inv
  have hlast : ∀ {x : Float}, Near 3 (u * u) x → Near 10 1 (x / B.det / size) := fun hx =>
    near_cofactor hx hdet hsize (mul_pos hupos hupos) (by field_simp) hw.inv
      (by rw [div_eq_mul_inv, ← mul_inv, hsame, inv_one]) ⟨by norm_num, by norm_num⟩
  refine ⟨hdiagonal ?_, hdiagonal ?_, hlast ?_, ?_, ?_, hzero ?_, hzero ?_, hzero ?_, hzero ?_⟩
  · exact (hB.m22.mul hB.m33 (hu.mul hw) hupos (by norm_num) (by norm_num)).sub_zero
      (IsZero.mul_right hB.m23.finite hB.m32)
  · exact (hB.m11.mul hB.m33 (hu.mul hw) hupos (by norm_num) (by norm_num)).sub_zero
      (IsZero.mul_right hB.m13.finite hB.m31)
  · exact (hB.m11.mul hB.m22 (hu.mul hu) hupos (by norm_num) (by norm_num)).sub_zero
      (hB.m12.mul_left hB.m21.finite)
  · obtain ⟨hfinite, hle⟩ := abs_number_translation_le hu hB.m13 hB.m22
      (isNearestTo_mul hB.m13.finite hB.m22.finite)
    obtain ⟨hdifference, hnumber⟩ := number_zero_sub (hB.m12.mul_left hB.m23.finite) hfinite
    exact within_translation hsize hsame hu hw hdet hdifference
      ((congrArg abs hnumber).trans_le ((abs_neg _).trans_le hle))
  · obtain ⟨hfinite, hle⟩ := abs_number_translation_le hu hB.m23 hB.m11
      (mul_comm (number B.m11) (number B.m23) ▸ isNearestTo_mul hB.m11.finite hB.m23.finite)
    obtain ⟨hdifference, hnumber⟩ :=
      number_zero_sub (IsZero.mul_right hB.m13.finite hB.m21) hfinite
    exact within_translation hsize hsame hu hw hdet hdifference
      ((congrArg abs hnumber).trans_le ((abs_neg _).trans_le hle))
  · exact (IsZero.mul_right hB.m13.finite hB.m32).sub (hB.m12.mul_left hB.m33.finite)
  · exact (IsZero.mul_right hB.m23.finite hB.m31).sub (hB.m21.mul_left hB.m33.finite)
  · exact (hB.m21.mul_left hB.m32.finite).sub (IsZero.mul_right hB.m22.finite hB.m31)
  · exact (hB.m12.mul_left hB.m31.finite).sub (IsZero.mul_right hB.m11.finite hB.m32)

/-- The inverse of a moderate similarity undoes its scale. -/
theorem denormalizing_inverse (h : Moderate scale center) :
    Denormalizing (number scale) (similarity scale center).inverse := by
  obtain ⟨hsize, hone, -, -⟩ := largest_bounds h
  obtain ⟨hu, hw⟩ := ratios_between h
  have hne := (zero_lt_one.trans_le hone).ne'
  exact (scaled_scaleDown h).denormalizing hu hw h.between hsize (one_div_mul_cancel hne)
    (div_mul_cancel₀ _ hne)

end Cofactors

end Inverse

end Normalization

end Projectivity
