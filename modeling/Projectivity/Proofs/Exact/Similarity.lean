import Projectivity.Proofs.Exact.Determined

/-!
# Estimates in other units of length

If the coordinates of a view get another unit of length and another origin, the centroid
and the mean distance change along with them, and normalized coordinates stay what they
are.  So the linear system is the same, also for correspondences with errors, and a
decomposition that is a function of the system gives the same solution.  Only the way
back to the coordinates of the views is another one.
-/

set_option autoImplicit false

namespace Projectivity

namespace Point

/-- A point with its coordinates multiplied by a factor and moved by a vector. -/
def rescale (p : Point ℝ) (k : ℝ) (v : Point ℝ) : Point ℝ := ⟨k * p.x + v.x, k * p.y + v.y⟩

variable {points : List (Point ℝ)} {k : ℝ}

/-- The mean of affine images is the affine image of the mean. -/
theorem mean_map_affine (h : points ≠ []) (f : Point ℝ → ℝ) (k c : ℝ) :
    Scalar.mean (points.map fun p => k * f p + c) = k * Scalar.mean (points.map f) + c := by
  have hlength : (points.length : ℝ) ≠ 0 :=
    Nat.cast_ne_zero.mpr (mt List.length_eq_zero_iff.mp h)
  have hsum : (points.map fun p => k * f p + c).sum =
      k * (points.map f).sum + points.length * c := by
    clear h hlength
    induction points with
    | nil => simp
    | cons p rest ih =>
      simp only [List.map_cons, List.sum_cons, ih, List.length_cons, Nat.cast_add, Nat.cast_one]
      ring
  unfold Scalar.mean
  rw [hsum, List.length_map, List.length_map, add_div, mul_div_cancel_left₀ _ hlength,
    mul_div_assoc]

/-- The centroid of rescaled points is the rescaled centroid. -/
theorem centroid_rescale (h : points ≠ []) (k : ℝ) (v : Point ℝ) :
    centroid (points.map (·.rescale k v)) = (centroid points).rescale k v := by
  simp only [centroid, rescale, List.map_map, Point.mk.injEq]
  exact ⟨mean_map_affine h x k v.x, mean_map_affine h y k v.y⟩

/-- The distance of rescaled points is multiplied by the factor. -/
theorem length_sub_rescale (hk : 0 ≤ k) (p q v : Point ℝ) :
    ((p.rescale k v).sub (q.rescale k v)).length = k * (p.sub q).length := by
  have hsquares : ((p.rescale k v).sub (q.rescale k v)).squaredLength =
      k ^ 2 * (p.sub q).squaredLength := by
    simp only [rescale, sub, squaredLength, Exact.square_eq]
    ring
  unfold length
  rw [hsquares, Exact.sqrt_eq, Exact.sqrt_eq, Real.sqrt_mul (sq_nonneg k), Real.sqrt_sq hk]

end Point

/-- A correspondence with the coordinates of both views rescaled. -/
def Correspondence.rescale (k : ℝ) (a : Point ℝ) (l : ℝ) (b : Point ℝ) (c : Correspondence ℝ) :
    Correspondence ℝ :=
  ⟨c.source.rescale k a, c.destination.rescale l b⟩

namespace Matrix3

variable {k : ℝ} {v : Point ℝ}

/-- The map that rescales all points. -/
def rescaling (k : ℝ) (v : Point ℝ) : Matrix3 ℝ := ⟨k, 0, v.x, 0, k, v.y, 0, 0, 1⟩

/-- A rescaling is not singular. -/
theorem det_rescaling (hk : k ≠ 0) : (rescaling k v).det ≠ 0 := by
  simpa [rescaling, det] using hk

/-- A rescaling moves and multiplies all points. -/
theorem rescaling_apply (k : ℝ) (v p : Point ℝ) :
    (rescaling k v).apply p = (p.rescale k v).lift := by
  simp [rescaling, apply, act, Point.rescale, Point.lift]

end Matrix3

namespace Normalization

variable {points : List (Point ℝ)} {k : ℝ} {v : Point ℝ} {S : Matrix3 ℝ}

/-- The mean distance of rescaled points is multiplied by the factor. -/
theorem meanDistance_rescale (h : points ≠ []) (hk : 0 ≤ k) (v : Point ℝ) :
    meanDistance (points.map (·.rescale k v)) (Point.centroid (points.map (·.rescale k v))) =
      k * meanDistance points (Point.centroid points) := by
  rw [Point.centroid_rescale h]
  unfold meanDistance
  rw [List.map_map]
  simpa [Function.comp_def, Point.length_sub_rescale hk] using
    Point.mean_map_affine h (fun p => (p.sub (Point.centroid points)).length) k 0

/-- Points that are spread are so after a rescaling by a factor from one. -/
theorem spread_rescale (h : points ≠ []) (hk : 1 ≤ k) (hspread : Spread points) (v : Point ℝ) :
    Spread (points.map (·.rescale k v)) := by
  unfold Spread at hspread ⊢
  have hnonneg : 0 ≤ meanDistance points (Point.centroid points) :=
    (Exact.decimal_pos Nat.one_pos 12).le.trans hspread
  rw [meanDistance_rescale h (zero_le_one.trans hk)]
  exact hspread.trans (le_mul_of_one_le_left hnonneg hk)

/-- The normalization of rescaled points takes the rescaling back. -/
theorem similarity_rescale (hk : k ≠ 0) (s : ℝ) (p v : Point ℝ) :
    similarity (s / k) (p.rescale k v) = (similarity s p).mul (Matrix3.rescaling k v).inverse := by
  have hback : similarity s p =
      (similarity (s / k) (p.rescale k v)).mul (Matrix3.rescaling k v) := by
    simp only [similarity, Point.rescale, Matrix3.rescaling, Matrix3.mul, Matrix3.mk.injEq]
    refine ⟨?_, ?_, ?_, ?_, ?_, ?_, ?_, ?_, ?_⟩ <;> field_simp <;> ring
  rw [hback, Matrix3.mul_mul_inverse (Matrix3.det_rescaling hk)]

/-- The normalizing transform of rescaled points changes them back first. -/
theorem transform?_rescale (hk : 0 < k) (h : points ≠ []) (hS : transform? points = some S)
    (hspread : Spread (points.map (·.rescale k v))) :
    transform? (points.map (·.rescale k v)) = some (S.mul (Matrix3.rescaling k v).inverse) := by
  obtain ⟨-, rfl⟩ := transform?_eq_some_iff.mp hS
  refine transform?_eq_some_iff.mpr ⟨hspread, ?_⟩
  rw [Point.centroid_rescale h, ← similarity_rescale hk.ne', ← Point.centroid_rescale h,
    meanDistance_rescale h hk.le, div_div, mul_comm k]

end Normalization

open Normalization (Spread)

namespace Linear

variable {data : List (Correspondence ℝ)} {a b : Point ℝ} {k l : ℝ}

/-- The sources of rescaled correspondences are rescaled. -/
theorem sources_rescale (k : ℝ) (a : Point ℝ) (l : ℝ) (b : Point ℝ)
    (data : List (Correspondence ℝ)) : Correspondence.sources (data.map (·.rescale k a l b)) =
      (Correspondence.sources data).map (·.rescale k a) := by
  simp only [Correspondence.sources, List.map_map]
  rfl

/-- The destinations of rescaled correspondences are rescaled. -/
theorem destinations_rescale (k : ℝ) (a : Point ℝ) (l : ℝ) (b : Point ℝ)
    (data : List (Correspondence ℝ)) : Correspondence.destinations (data.map (·.rescale k a l b)) =
      (Correspondence.destinations data).map (·.rescale l b) := by
  simp only [Correspondence.destinations, List.map_map]
  rfl

section Equivariance

variable [Spectral ℝ] {tolerance : ℝ} {S D G H K : Matrix3 ℝ}

/-- Rescaled correspondences have the same normalized solution, unless they count as coincident. -/
theorem Solves.rescale (hk : 0 < k) (hl : 0 < l) (h : Solves tolerance data S D G)
    (hsource : Spread (Correspondence.sources (data.map (·.rescale k a l b))))
    (hdestination : Spread (Correspondence.destinations (data.map (·.rescale k a l b)))) :
    Solves tolerance (data.map (·.rescale k a l b)) (S.mul (Matrix3.rescaling k a).inverse)
      (D.mul (Matrix3.rescaling l b).inverse) G := by
  have hdata : data ≠ [] := ne_nil_of_enough h.enough
  rw [sources_rescale] at hsource
  rw [destinations_rescale] at hdestination
  constructor
  · rw [List.length_map]
    exact h.enough
  · rw [sources_rescale]
    exact Normalization.transform?_rescale hk (mt List.map_eq_nil_iff.mp hdata) h.source hsource
  · rw [destinations_rescale]
    exact Normalization.transform?_rescale hl (mt List.map_eq_nil_iff.mp hdata) h.destination
      hdestination
  · rw [system_change (Matrix3.det_rescaling hk.ne') (Matrix3.det_rescaling hl.ne')
      (fun c => Matrix3.rescaling_apply k a c.source)
      (fun c => Matrix3.rescaling_apply l b c.destination)]
    exact h.solution

/-- The candidate from rescaled correspondences is the rescaled candidate, unless they count as
coincident. -/
theorem candidate?_rescale (hk : 0 < k) (hl : 0 < l) (h : candidate? tolerance data = some H)
    (hsource : Spread (Correspondence.sources (data.map (·.rescale k a l b))))
    (hdestination : Spread (Correspondence.destinations (data.map (·.rescale k a l b)))) :
    candidate? tolerance (data.map (·.rescale k a l b)) =
      some (((Matrix3.rescaling l b).mul H).mul (Matrix3.rescaling k a).inverse) := by
  obtain ⟨S, D, G, hsolves, rfl⟩ := candidate?_eq_some_iff.mp h
  obtain ⟨hD, -⟩ := normalization_cases hsolves.destination
  exact candidate?_eq_some_iff.mpr ⟨_, _, G, hsolves.rescale hk hl hsource hdestination,
    (Matrix3.change_of_changed (Matrix3.det_rescaling hl.ne') hD).symm⟩

variable [Spectral.Exact]

/-- If correspondences and rescaled correspondences are both accepted, the one estimate is the other
one rescaled, up to a factor. -/
theorem estimate_rescale (hk : 0 < k) (hl : 0 < l) (hH : estimate? tolerance data = some H)
    (hK : estimate? tolerance (data.map (·.rescale k a l b)) = some K) :
    K.Proportional (((Matrix3.rescaling l b).mul H).mul (Matrix3.rescaling k a).inverse) := by
  obtain ⟨C, hC, hHC⟩ := exists_candidate_proportional hH
  obtain ⟨E, hE, hKE⟩ := exists_candidate_proportional hK
  -- The rescaled points are not coincident, since there is a candidate from them.
  obtain ⟨S, D, G, hsolves, -⟩ := candidate?_eq_some_iff.mp hE
  have hsame := candidate?_rescale hk hl hC
    (Normalization.exists_transform_iff.mp ⟨S, hsolves.source⟩)
    (Normalization.exists_transform_iff.mp ⟨D, hsolves.destination⟩)
  obtain rfl := Option.some.inj (hE.symm.trans hsame)
  exact hKE.trans hHC.symm.change

end Equivariance

/-- With the chosen decomposition there is an estimate from the square after its sources are moved,
and its destinations are enlarged and moved. -/
theorem estimate_rescale_square :
    letI : Spectral ℝ := Spectral.chosen
    ∃ H K, estimate? rankTolerance square = some H ∧
      estimate? rankTolerance (square.map (·.rescale 1 ⟨3, 4⟩ 2 ⟨6, 8⟩)) = some K ∧
      K.Proportional
        (((Matrix3.rescaling 2 ⟨6, 8⟩).mul H).mul (Matrix3.rescaling 1 ⟨3, 4⟩).inverse) := by
  let spectral : Spectral ℝ := Spectral.chosen
  have hexact : Spectral.Exact := Spectral.chosen_exact
  obtain ⟨H, hH⟩ := Option.ne_none_iff_exists'.mp estimate?_square
  obtain ⟨k, hk, hcandidate⟩ := candidate?_square
  have hspread := Normalization.exists_transform_iff.mp ⟨_, transform?_square⟩
  have hmoved := candidate?_rescale (a := ⟨3, 4⟩) (b := ⟨6, 8⟩) one_pos two_pos hcandidate
    (sources_rescale _ _ _ _ _ ▸ Normalization.spread_rescale (by decide) le_rfl hspread _)
    (destinations_rescale _ _ _ _ _ ▸ Normalization.spread_rescale (by decide) one_le_two hspread _)
  -- The two changes differ by a dilation alone.
  have hdilation : Matrix3.rescaling 2 ⟨6, 8⟩ =
      (Matrix3.dilation 2).mul (Matrix3.rescaling 1 ⟨3, 4⟩) := by
    norm_num [Matrix3.rescaling, Matrix3.dilation, Matrix3.mul]
  rw [Matrix3.mul_scale, Matrix3.scale_mul, Matrix3.mul_one, hdilation,
    Matrix3.mul_mul_inverse (Matrix3.det_rescaling one_ne_zero)] at hmoved
  have hdilated : (Matrix3.dilation 2).isNonSingular Matrix3.rankTolerance = true :=
    Matrix3.isNonSingular_dilation one_le_two (by norm_num)
  have hregular := (Matrix3.isNonSingular_scale hk).mpr hdilated
  have hK : estimate? rankTolerance (square.map (·.rescale 1 ⟨3, 4⟩ 2 ⟨6, 8⟩)) =
      some ((Matrix3.dilation 2).scale k).canonicalScale := by
    rw [estimate?_eq]
    exact estimateWithin?_eq_some_iff.mpr ⟨_, hmoved, hregular, rfl⟩
  exact ⟨H, _, hH, hK, estimate_rescale one_pos two_pos hH hK⟩

end Linear

end Projectivity
