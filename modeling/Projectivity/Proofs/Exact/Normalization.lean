import Projectivity.Proofs.Exact.Similarity

/-!
# Normalized points

The normalizing similarity of a list of points rescales all of them alike.  Their centroid
goes to the origin, because that is where the similarity moves it, and their mean distance
from it becomes the square root of two, because all distances are multiplied by the same
factor.
-/

set_option autoImplicit false

namespace Projectivity

/-- The mean of a quantity over the items of a list. -/
noncomputable def average {ι : Type} (items : List ι) (f : ι → ℝ) : ℝ :=
  (items.map f).sum / items.length

/-- Homogeneous points of the plane with their centroid at the origin, at a mean distance of the
square root of two from it. -/
structure Homogeneous.Normalized (images : List (Homogeneous ℝ)) : Prop where
  last : ∀ h ∈ images, h.w = 1
  centered_x : average images Homogeneous.x = 0
  centered_y : average images Homogeneous.y = 0
  scaled : average images (fun h => √(h.x ^ 2 + h.y ^ 2)) = √2

section Averages

variable {ι κ : Type} (items : List ι)

/-- The mean of the values of a function is its average. -/
theorem mean_map_eq_average (f : ι → ℝ) : Scalar.mean (items.map f) = average items f := by
  rw [Scalar.mean, List.length_map, average]

/-- An average over images is one over what they are images of. -/
theorem average_map (g : ι → κ) (f : κ → ℝ) :
    average (items.map g) f = average items fun i => f (g i) := by
  rw [average, List.map_map, List.length_map]
  rfl

end Averages

namespace Point

/-- The centroid has the averages of the coordinates. -/
theorem centroid_eq (points : List (Point ℝ)) :
    centroid points = ⟨average points Point.x, average points Point.y⟩ := by
  rw [centroid, mean_map_eq_average, mean_map_eq_average]

/-- A centroid that is moved back to the origin is the origin, whatever the factor is. -/
theorem rescale_center (p : Point ℝ) (k : ℝ) : p.rescale k ⟨-k * p.x, -k * p.y⟩ = ⟨0, 0⟩ := by
  simp [rescale]

end Point

namespace Normalization

variable {points : List (Point ℝ)}

/-- The mean distance is the average of the distances. -/
theorem meanDistance_eq (points : List (Point ℝ)) (center : Point ℝ) :
    meanDistance points center =
      average points fun p => √((p.x - center.x) ^ 2 + (p.y - center.y) ^ 2) := by
  rw [meanDistance, mean_map_eq_average]
  simp only [Point.length, Point.squaredLength, Point.sub, Exact.sqrt_eq, Exact.square_eq]

/-- A similarity rescales points, and leaves their last coordinate one. -/
theorem similarity_apply (k : ℝ) (center p : Point ℝ) :
    (similarity k center).apply p = (p.rescale k ⟨-k * center.x, -k * center.y⟩).lift :=
  Matrix3.rescaling_apply k ⟨-k * center.x, -k * center.y⟩ p

/-- Points are not spread exactly if their mean distance is below the bound. -/
theorem not_spread_iff : ¬ Spread points ↔
    meanDistance points (Point.centroid points) < 1 / 10 ^ 12 := by
  rw [Spread, not_le, coincidenceBound, Exact.decimal_eq, Nat.cast_one]

/-- The images of points that are not coincident are normalized. -/
theorem normalized_of_spread (h : points ≠ []) (hspread : Spread points) :
    Homogeneous.Normalized (points.map (similarity
      (√2 / meanDistance points (Point.centroid points)) (Point.centroid points)).apply) := by
  have hpos : 0 < meanDistance points (Point.centroid points) :=
    (Exact.decimal_pos Nat.one_pos 12).trans_le hspread
  set center := Point.centroid points with hcenter
  set k := √2 / meanDistance points center with hk
  have hmoved := Point.centroid_rescale h k ⟨-k * center.x, -k * center.y⟩
  rw [← hcenter, Point.rescale_center] at hmoved
  have hdistance := meanDistance_rescale h (k := k) (by positivity)
    ⟨-k * center.x, -k * center.y⟩
  rw [hmoved, ← hcenter, hk, div_mul_cancel₀ _ hpos.ne', ← hk, meanDistance_eq] at hdistance
  rw [Point.centroid_eq, Point.mk.injEq] at hmoved
  simp only [average_map, sub_zero] at hmoved hdistance
  constructor
  · simp only [List.forall_mem_map, similarity_apply, Point.lift, implies_true]
  · simpa only [average_map, similarity_apply, Point.lift] using hmoved.1
  · simpa only [average_map, similarity_apply, Point.lift] using hmoved.2
  · simpa only [average_map, similarity_apply, Point.lift] using hdistance

/-- Points have no normalizing transform exactly if their mean distance from their centroid is below
`10 ^ -12`.  Otherwise the transform is invertible, and the images of the points are normalized. -/
theorem transform?_normalizes (h : points ≠ []) :
    let center : Point ℝ := ⟨average points Point.x, average points Point.y⟩
    (transform? points = none ↔
        average points (fun p => √((p.x - center.x) ^ 2 + (p.y - center.y) ^ 2)) < 1 / 10 ^ 12) ∧
      ∀ T, transform? points = some T →
        T.mul T.inverse = Matrix3.one ∧ T.inverse.mul T = Matrix3.one ∧
          Homogeneous.Normalized (points.map T.apply) := by
  intro center
  have hcenter : Point.centroid points = center := Point.centroid_eq points
  refine ⟨?_, ?_⟩
  · rw [← meanDistance_eq, ← hcenter, ← not_spread_iff, ← exists_transform_iff,
      ← Option.ne_none_iff_exists', not_not]
  · intro T hT
    have hdet := (Linear.normalization_cases hT).1
    obtain ⟨hspread, rfl⟩ := transform?_eq_some_iff.mp hT
    refine ⟨Matrix3.mul_inverse hdet, Matrix3.inverse_mul hdet, ?_⟩
    rw [Nat.cast_ofNat]
    exact normalized_of_spread h hspread

/-- Two points four apart have a normalizing transform, which moves them to both sides of the
origin. -/
theorem transform?_normalizes_segment :
    let points : List (Point ℝ) := [⟨1, 5⟩, ⟨5, 5⟩]
    points ≠ [] ∧ ∃ T, transform? points = some T ∧ T.mul T.inverse = Matrix3.one ∧
      T.inverse.mul T = Matrix3.one ∧ Homogeneous.Normalized (points.map T.apply) := by
  intro points
  have hsome : points ≠ [] := List.cons_ne_nil _ _
  obtain ⟨hnone, hall⟩ := transform?_normalizes hsome
  have hapart : transform? points ≠ none := by
    rw [Ne, hnone, not_lt]
    calc (1 / 10 ^ 12 : ℝ) ≤ 1 := by norm_num
      _ ≤ √4 := Real.one_le_sqrt.mpr (by norm_num)
      _ = average points _ := by norm_num [points, average]
  obtain ⟨T, hT⟩ := Option.ne_none_iff_exists'.mp hapart
  exact ⟨hsome, T, hT, hall T hT⟩

end Normalization

end Projectivity
