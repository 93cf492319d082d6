import Projectivity.Proofs.Exact.Linear
import Projectivity.Proofs.Exact.WideMatrix

/-!
# Estimates over wide scalars

Special values do not come up in an estimation from real points: it divides by the
number of points, by their spread and by the norm of a matrix that is not singular, and
none of these is zero.  The estimate from real points among the scalars with special
values is therefore the real one.
-/

set_option autoImplicit false

namespace Projectivity

open Wide (real)

/-- A real correspondence as a wide one. -/
def Correspondence.widen (c : Correspondence ℝ) : Correspondence Wide :=
  ⟨c.source.widen, c.destination.widen⟩

/-- The mean of real numbers is exact. -/
theorem Wide.mean_map_real {l : List ℝ} (h : l ≠ []) :
    Scalar.mean (l.map real) = real (Scalar.mean l) := by
  unfold Scalar.mean
  rw [sum_map_real, List.length_map]
  exact real_div _ (Nat.cast_ne_zero.mpr (List.length_pos_iff.mpr h).ne')

namespace Point

/-- The length of a real point is exact. -/
theorem widen_length (p : Point ℝ) : p.widen.length = real p.length := by
  have hnonneg : 0 ≤ p.squaredLength := by
    simp only [squaredLength, Exact.square_eq]
    positivity
  exact Wide.sqrt_real hnonneg

/-- The difference of real points is exact. -/
theorem widen_sub (p q : Point ℝ) : p.widen.sub q.widen = (p.sub q).widen := by
  simp only [sub, widen, Wide.real_sub]

/-- The centroid of real points is exact. -/
theorem widen_centroid {points : List (Point ℝ)} (h : points ≠ []) :
    centroid (points.map widen) = (centroid points).widen := by
  have hx : (points.map widen).map Point.x = (points.map Point.x).map real := by
    rw [List.map_map, List.map_map]
    rfl
  have hy : (points.map widen).map Point.y = (points.map Point.y).map real := by
    rw [List.map_map, List.map_map]
    rfl
  unfold centroid
  rw [hx, hy, Wide.mean_map_real (mt List.map_eq_nil_iff.mp h),
    Wide.mean_map_real (mt List.map_eq_nil_iff.mp h)]
  rfl

end Point

namespace Normalization

variable {points : List (Point ℝ)}

/-- The mean distance of real points is exact. -/
theorem widen_meanDistance (h : points ≠ []) (center : Point ℝ) :
    meanDistance (points.map Point.widen) center.widen = real (meanDistance points center) := by
  unfold meanDistance
  rw [← Wide.mean_map_real (mt List.map_eq_nil_iff.mp h), List.map_map, List.map_map]
  refine congrArg Scalar.mean (List.map_congr_left fun p _ => ?_)
  simp only [Function.comp_apply, Point.widen_sub, Point.widen_length]

/-- The normalization of real points is exact. -/
theorem widen_transform? (h : points ≠ []) :
    transform? (points.map Point.widen) = (transform? points).map Matrix3.widen := by
  unfold transform?
  simp only [Point.widen_centroid h, widen_meanDistance h]
  set distance := meanDistance points (Point.centroid points)
  have hbound : real distance < coincidenceBound ↔ distance < coincidenceBound := Iff.rfl
  simp only [Wide.isFinite_real, Exact.isFinite_eq, Bool.true_and, hbound]
  split
  · rename_i hspread
    rw [Bool.not_eq_true', decide_eq_false_iff_not, not_lt] at hspread
    have hdistance : distance ≠ 0 := (lt_of_lt_of_le (Exact.decimal_pos Nat.one_pos 12) hspread).ne'
    have htwo : Scalar.sqrt ((2 : ℕ) : Wide) = real (Scalar.sqrt ((2 : ℕ) : ℝ)) :=
      Wide.sqrt_real (Nat.cast_nonneg 2)
    rw [htwo, Wide.real_div _ hdistance]
    rfl
  · rfl

end Normalization

namespace Linear

variable {data : List (Correspondence ℝ)}

/-- The system of real correspondences is real. -/
theorem widen_system (S D : Matrix3 ℝ) : system S.widen D.widen (data.map Correspondence.widen) =
    (system S D data).map (List.map real) := by
  unfold system
  rw [List.flatMap_map, List.map_flatMap]
  rfl

/-- Either side of the correspondences has the normalizing transform that it has among reals. -/
theorem transform?_side (h : data ≠ []) {wide : Correspondence Wide → Point Wide}
    {side : Correspondence ℝ → Point ℝ} (hside : ∀ c, wide c.widen = (side c).widen) :
    Normalization.transform? ((data.map Correspondence.widen).map wide) =
      (Normalization.transform? (data.map side)).map Matrix3.widen := by
  rw [← Normalization.widen_transform? (mt List.map_eq_nil_iff.mp h), List.map_map, List.map_map]
  exact congrArg _ (List.map_congr_left fun c _ => hside c)

variable [spectral : Spectral ℝ] {tolerance : ℝ}

/-- The solution of a real system is exact. -/
theorem widen_solution? (rows : List (List ℝ)) :
    letI : Spectral Wide := spectral.widen
    solution? (real tolerance) (rows.map (List.map real)) =
      (solution? tolerance rows).map Matrix3.widen := by
  let wide := spectral.widen
  have hspectrum : wide.spectrum (rows.map (List.map real)) = _ := spectral.spectrum_widen rows
  unfold solution?
  rw [hspectrum]
  simp only [Spectrum.map, List.getElem?_map]
  cases (Spectral.spectrum rows).values[0]? with
  | none => rfl
  | some first =>
    cases (Spectral.spectrum rows).values[7]? with
    | none => rfl
    | some eighth =>
      cases (Spectral.spectrum rows).vectors[8]? with
      | none => rfl
      | some kernel =>
        simp only [Option.map_some, Wide.real_mul, Wide.real_le_real]
        split
        · rfl
        · exact Matrix3.ofEntries?_map real kernel

/-- The candidate from real correspondences is exact. -/
theorem widen_candidate? :
    letI : Spectral Wide := spectral.widen
    candidate? (real tolerance) (data.map Correspondence.widen) =
      (candidate? tolerance data).map Matrix3.widen := by
  let wide := spectral.widen
  unfold candidate?
  rw [List.length_map]
  split
  · rfl
  rename_i henough
  have hdata : data ≠ [] := ne_nil_of_enough (Nat.le_of_not_lt henough)
  have hsources : Normalization.transform?
      (Correspondence.sources (data.map Correspondence.widen)) =
        (Normalization.transform? (Correspondence.sources data)).map Matrix3.widen :=
    transform?_side hdata fun _ => rfl
  have hdestinations : Normalization.transform?
      (Correspondence.destinations (data.map Correspondence.widen)) =
        (Normalization.transform? (Correspondence.destinations data)).map Matrix3.widen :=
    transform?_side hdata fun _ => rfl
  rw [hsources, hdestinations]
  cases hS : Normalization.transform? (Correspondence.sources data) with
  | none => rfl
  | some S =>
    cases hD : Normalization.transform? (Correspondence.destinations data) with
    | none => rfl
    | some D =>
      simp only [Option.map_some, Option.bind_eq_bind, Option.bind_some, widen_system,
        widen_solution?, Matrix3.widen_inverse (normalization_cases hD).1]
      cases solution? tolerance (system S D data) <;> rfl

/-- The estimate from real points is the same one over wide scalars. -/
theorem widen_estimate? [Spectral.Exact] :
    letI : Spectral Wide := spectral.widen
    estimate? (real tolerance) (data.map Correspondence.widen) =
      (estimate? tolerance data).map Matrix3.widen := by
  let wide := spectral.widen
  have hwide : Spectral.WideExact := Spectral.widen_exact inferInstance
  rw [estimate?_eq, estimate?_eq]
  unfold estimateWithin?
  rw [widen_candidate?]
  cases candidate? tolerance data with
  | none => rfl
  | some A =>
    have hregular : A.widen.isNonSingular Matrix3.rankTolerance = true ↔
        A.isNonSingular Matrix3.rankTolerance = true :=
      (Matrix3.isNonSingular_widen_iff A).trans Matrix3.isNonSingular_iff_regular.symm
    simp only [Option.map_some, Option.bind_eq_bind, Option.bind_some, hregular]
    split
    · rename_i h
      rw [Matrix3.widen_canonicalScale (Matrix3.det_ne_zero_of_isNonSingular h)]
      rfl
    · rfl

end Linear

end Projectivity
