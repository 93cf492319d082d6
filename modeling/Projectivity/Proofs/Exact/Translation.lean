import Projectivity.Proofs.Exact.Conditioning
import Projectivity.Proofs.Exact.Similarity

/-!
# Estimates and the origin of the coordinates

Moving the origins of the two views moves the candidate of the linear estimation with
them: normalized coordinates and the linear system stay what they are.  Only the test
for singularity looks at the candidate in the coordinates as they are given, and a
translation changes the ratio of its singular values.
-/

set_option autoImplicit false

namespace Projectivity

namespace Point

/-- A point moved by a vector. -/
def move (p v : Point ℝ) : Point ℝ := ⟨p.x + v.x, p.y + v.y⟩

/-- The square of a length is the sum of the squares of the coordinates. -/
theorem length_sq (v : Point ℝ) : v.length ^ 2 = v.x ^ 2 + v.y ^ 2 := by
  unfold length squaredLength
  rw [Exact.sqrt_eq, Exact.square_eq, Exact.square_eq, Real.sq_sqrt (by positivity)]

/-- A length is not negative. -/
theorem length_nonneg (v : Point ℝ) : 0 ≤ v.length := Real.sqrt_nonneg _

/-- A point is moved by a change of coordinates that does not rescale. -/
theorem move_eq_rescale (p v : Point ℝ) : p.move v = p.rescale 1 v := by
  simp only [move, rescale, one_mul]

end Point

/-- A correspondence with both views moved. -/
def Correspondence.move (a b : Point ℝ) (c : Correspondence ℝ) : Correspondence ℝ :=
  ⟨c.source.move a, c.destination.move b⟩

namespace Matrix3

variable {v : Point ℝ} {H : Matrix3 ℝ} {tolerance : ℝ}

/-- The map that moves all points by a vector. -/
def translation (v : Point ℝ) : Matrix3 ℝ := ⟨1, 0, v.x, 0, 1, v.y, 0, 0, 1⟩

/-- A translation is a change of coordinates that does not rescale. -/
theorem translation_eq_rescaling (v : Point ℝ) : translation v = rescaling 1 v := rfl

/-- A translation moves all points. -/
theorem translation_apply (v p : Point ℝ) : (translation v).apply p = (p.move v).lift := by
  rw [translation_eq_rescaling, rescaling_apply, Point.move_eq_rescale]

/-- A translation has determinant one. -/
@[simp] theorem det_translation : (translation v).det = 1 := by
  simp [translation, det]

/-- The inverse of a translation moves back. -/
theorem inverse_translation : (translation v).inverse = translation ⟨-v.x, -v.y⟩ := by
  refine (eq_inverse_of_mul_eq_one (det_translation.symm ▸ one_ne_zero) ?_).symm
  simp [translation, mul, one]

/-- A translation stretches homogeneous coordinates at most by its length and one. -/
theorem squaredLength_translation_le (v : Point ℝ) (h : Homogeneous ℝ) :
    ((translation v).act h).squaredLength ≤ (1 + v.length) ^ 2 * h.squaredLength := by
  have hlength := v.length_sq
  have hnonneg := v.length_nonneg
  generalize v.length = r at hlength hnonneg
  -- The mixed term is at most the length of the vector times the squared length.
  have hmixed : 2 * h.w * (v.x * h.x + v.y * h.y) ≤ r * h.squaredLength := by
    rcases hnonneg.eq_or_lt with rfl | hpos
    · have hx : v.x = 0 := by nlinarith [sq_nonneg v.x, sq_nonneg v.y]
      have hy : v.y = 0 := by nlinarith [sq_nonneg v.x, sq_nonneg v.y]
      simp [hx, hy]
    · refine le_of_mul_le_mul_left ?_ hpos
      have hsquares : r * (r * h.squaredLength) - r * (2 * h.w * (v.x * h.x + v.y * h.y)) =
          (v.x * h.x + v.y * h.y - r * h.w) ^ 2 + (v.y * h.x - v.x * h.y) ^ 2 := by
        unfold Homogeneous.squaredLength
        linear_combination (h.x ^ 2 + h.y ^ 2) * hlength
      linarith [sq_nonneg (v.x * h.x + v.y * h.y - r * h.w), sq_nonneg (v.y * h.x - v.x * h.y)]
  have hact : ((translation v).act h).squaredLength =
      h.squaredLength + 2 * h.w * (v.x * h.x + v.y * h.y) + r ^ 2 * h.w ^ 2 := by
    rw [hlength]
    simp only [translation, act, Homogeneous.squaredLength]
    ring
  have hlast : r ^ 2 * h.w ^ 2 ≤ r ^ 2 * h.squaredLength := by
    refine mul_le_mul_of_nonneg_left ?_ (sq_nonneg r)
    unfold Homogeneous.squaredLength
    linarith [sq_nonneg h.x, sq_nonneg h.y]
  have hpart := mul_nonneg hnonneg h.squaredLength_nonneg
  calc ((translation v).act h).squaredLength
      ≤ h.squaredLength + r * h.squaredLength + r ^ 2 * h.squaredLength := by
        rw [hact]
        linarith
    _ ≤ (1 + r) ^ 2 * h.squaredLength := by linarith

/-- A translation distorts by its length at most. -/
theorem distorts_translation (v : Point ℝ) : (translation v).Distorts (1 + v.length) where
  regular := by simp
  one_le := by linarith [v.length_nonneg]
  there := squaredLength_translation_le v
  back h := by
    have hlength : Point.length (⟨-v.x, -v.y⟩ : Point ℝ) = v.length := by
      simp [Point.length, Point.squaredLength]
    rw [inverse_translation, ← hlength]
    exact squaredLength_translation_le _ h

/-- A transform in coordinates whose origins are moved. -/
noncomputable def move (a b : Point ℝ) (H : Matrix3 ℝ) : Matrix3 ℝ :=
  ((translation b).mul H).mul (translation a).inverse

/-- The factor by which moving the origins may change the ratio of singular values. -/
noncomputable def distortion (a b : Point ℝ) : ℝ := ((1 + b.length) * (1 + a.length)) ^ 2

variable {a b : Point ℝ}

/-- A distortion is at least one. -/
theorem one_le_distortion (a b : Point ℝ) : 1 ≤ distortion a b :=
  one_le_pow₀ (one_le_mul_of_one_le_of_one_le (distorts_translation b).one_le
    (distorts_translation a).one_le)

/-- A transform that is regular with the distortion to spare is regular in moved coordinates. -/
theorem Regular.move (h : H.Regular (tolerance * distortion a b)) (htolerance : 0 ≤ tolerance) :
    (H.move a b).Regular tolerance :=
  h.distort htolerance (distorts_translation b) (distorts_translation a).inverse

/-- Moving the origins back gives the transform again. -/
theorem move_back (a b : Point ℝ) (H : Matrix3 ℝ) :
    ((translation b).inverse.mul (H.move a b)).mul (translation a) = H :=
  change_back (by simp) (by simp)

/-- The identity with a moved origin is a translation. -/
theorem one_move (v : Point ℝ) : one.move ⟨0, 0⟩ v = translation v := by
  have hone : translation ⟨0, 0⟩ = one := rfl
  unfold move
  rw [hone, inverse_one, Matrix3.mul_one, Matrix3.mul_one]

/-- A factor of the transform is a factor of the moved one. -/
theorem move_scale (a b : Point ℝ) (k : ℝ) (H : Matrix3 ℝ) :
    (H.scale k).move a b = (H.move a b).scale k := by
  unfold move
  rw [mul_scale, scale_mul]

/-- A moved transform that is regular with the distortion to spare was regular before. -/
theorem Regular.of_move (h : (H.move a b).Regular (tolerance * distortion a b))
    (htolerance : 0 ≤ tolerance) : H.Regular tolerance := by
  have hback := h.distort htolerance (distorts_translation b).inverse (distorts_translation a)
  rwa [move_back] at hback

end Matrix3

section Normalization

open Normalization Matrix3

variable {S T D : Matrix3 ℝ} {points : List (Point ℝ)} {v : Point ℝ}

/-- The normalizing transform of moved points moves them back first. -/
theorem Normalization.transform?_move (h : points ≠ []) (v : Point ℝ) :
    transform? (points.map (·.move v)) =
      (transform? points).map fun T => T.mul (translation v).inverse := by
  have hdistance := meanDistance_rescale h zero_le_one v
  have hsimilarity (s : ℝ) := similarity_rescale one_ne_zero s (Point.centroid points) v
  simp only [one_mul, div_one] at hdistance hsimilarity
  simp only [Point.move_eq_rescale, translation_eq_rescaling]
  unfold transform?
  simp only [hdistance]
  rw [Point.centroid_rescale h, hsimilarity]
  split <;> rfl

end Normalization

namespace Linear

open Matrix3 (translation)

variable {data : List (Correspondence ℝ)} {a b : Point ℝ}

/-- The system does not change if the normalization takes the translations back. -/
theorem system_move (S D : Matrix3 ℝ) (a b : Point ℝ) (data : List (Correspondence ℝ)) :
    system (S.mul (translation a).inverse) (D.mul (translation b).inverse)
      (data.map (·.move a b)) = system S D data :=
  system_change (by simp) (by simp) (fun c => Matrix3.translation_apply a c.source)
    (fun c => Matrix3.translation_apply b c.destination)

/-- The sources of moved correspondences are moved. -/
theorem sources_move (a b : Point ℝ) (data : List (Correspondence ℝ)) :
    Correspondence.sources (data.map (·.move a b)) =
      (Correspondence.sources data).map (·.move a) := by
  simp only [Correspondence.sources, List.map_map]
  rfl

/-- The destinations of moved correspondences are moved. -/
theorem destinations_move (a b : Point ℝ) (data : List (Correspondence ℝ)) :
    Correspondence.destinations (data.map (·.move a b)) =
      (Correspondence.destinations data).map (·.move b) := by
  simp only [Correspondence.destinations, List.map_map]
  rfl

section Verdict

variable [Spectral ℝ] {tolerance regularity : ℝ} {H : Matrix3 ℝ}

/-- The candidate of moved data is the moved candidate. -/
theorem candidate?_move (tolerance : ℝ) (a b : Point ℝ) (data : List (Correspondence ℝ)) :
    candidate? tolerance (data.map (·.move a b)) =
      (candidate? tolerance data).map (Matrix3.move a b) := by
  unfold candidate?
  rw [List.length_map]
  split
  · rfl
  rename_i henough
  have hdata : data ≠ [] := ne_nil_of_enough (Nat.le_of_not_lt henough)
  have hsources : Correspondence.sources data ≠ [] := mt List.map_eq_nil_iff.mp hdata
  have hdestinations : Correspondence.destinations data ≠ [] := mt List.map_eq_nil_iff.mp hdata
  rw [sources_move, destinations_move, Normalization.transform?_move hsources,
    Normalization.transform?_move hdestinations]
  cases Normalization.transform? (Correspondence.sources data) with
  | none => rfl
  | some S =>
    cases hD : Normalization.transform? (Correspondence.destinations data) with
    | none => rfl
    | some D =>
      simp only [Option.map_some, Option.bind_eq_bind, Option.bind_some, system_move]
      cases solution? tolerance (system S D data) with
      | none => rfl
      | some G =>
        -- The system is the same, and only the way back from its solution is another one.
        obtain ⟨hDdet, -⟩ := normalization_cases hD
        simp only [Option.bind_some, Option.pure_def, Option.map_some, Option.some.injEq]
        exact Matrix3.change_of_changed (by simp) hDdet

variable [Spectral.Exact]

/-- There is no estimate exactly if there is no candidate or a singular one. -/
theorem estimateWithin?_eq_none_iff : estimateWithin? tolerance regularity data = none ↔
    ∀ H, candidate? tolerance data = some H → ¬ H.Regular regularity := by
  simp only [Option.eq_none_iff_forall_ne_some, ne_eq, estimateWithin?_eq_some_iff,
    Matrix3.isNonSingular_iff_regular, not_exists, not_and]
  exact ⟨fun h H hH hregular => h _ H hH hregular rfl,
    fun h K H hH hregular _ => h H hH hregular⟩

/-- There is no estimate in moved coordinates exactly if the moved candidates are not regular. -/
theorem estimateWithin?_move_eq_none_iff :
    estimateWithin? tolerance regularity (data.map (·.move a b)) = none ↔
      ∀ H, candidate? tolerance data = some H → ¬ (H.move a b).Regular regularity := by
  rw [estimateWithin?_eq_none_iff, candidate?_move]
  simp only [Option.map_eq_some_iff, forall_exists_index, and_imp, forall_apply_eq_imp_iff₂]

/-- The verdicts on data and on moved data agree exactly if the candidate and the moved candidate
are on the same side of the test for singularity. -/
theorem verdict_move_iff : (estimateWithin? tolerance regularity (data.map (·.move a b)) = none ↔
      estimateWithin? tolerance regularity data = none) ↔
    ∀ H, candidate? tolerance data = some H →
      (H.Regular regularity ↔ (H.move a b).Regular regularity) := by
  rw [estimateWithin?_move_eq_none_iff, estimateWithin?_eq_none_iff]
  cases candidate? tolerance data with
  | none => simp
  | some H =>
    simp only [Option.some.injEq, forall_eq']
    exact not_iff_not.trans iff_comm

/-- The verdict of the estimation on moved data is the one on the data exactly if the candidate is
on the same side of the test for singularity in both coordinates.  It is so if the ratio of its
singular values is not within the distortion of the tolerance, and always if the test is exact. -/
theorem verdict_move (data : List (Correspondence ℝ)) (a b : Point ℝ) :
    (∀ tolerance, candidate? tolerance (data.map (·.move a b)) =
      (candidate? tolerance data).map (Matrix3.move a b)) ∧
    ((estimate? rankTolerance (data.map (·.move a b)) = none ↔
        estimate? rankTolerance data = none) ↔
      ∀ H, candidate? rankTolerance data = some H →
        (H.Regular Matrix3.rankTolerance ↔ (H.move a b).Regular Matrix3.rankTolerance)) ∧
    ((∀ H, candidate? rankTolerance data = some H →
        H.Regular (Matrix3.rankTolerance / Matrix3.distortion a b) →
          H.Regular (Matrix3.rankTolerance * Matrix3.distortion a b)) →
      (estimate? rankTolerance (data.map (·.move a b)) = none ↔
        estimate? rankTolerance data = none)) ∧
    ∀ tolerance, estimateWithin? tolerance 0 (data.map (·.move a b)) = none ↔
      estimateWithin? tolerance 0 data = none := by
  simp only [estimate?_eq]
  refine ⟨fun tolerance => candidate?_move tolerance a b data, verdict_move_iff, ?_, ?_⟩
  · intro hroom
    rw [verdict_move_iff]
    intro H hH
    have htolerance : (0 : ℝ) ≤ Matrix3.rankTolerance := (Exact.decimal_pos Nat.one_pos 12).le
    have hdistortion := Matrix3.one_le_distortion a b
    have hpos : 0 < Matrix3.distortion a b := lt_of_lt_of_le one_pos hdistortion
    constructor
    · intro hregular
      exact (hroom H hH (hregular.mono (div_le_self htolerance hdistortion))).move htolerance
    · intro hmoved
      rw [← div_mul_cancel₀ Matrix3.rankTolerance hpos.ne'] at hmoved
      exact (hroom H hH (hmoved.of_move (div_nonneg htolerance hpos.le))).mono
        (le_mul_of_one_le_right htolerance hdistortion)
  · intro tolerance
    rw [verdict_move_iff]
    intro H _
    constructor
    · exact fun h => Matrix3.Regular.move (by rwa [zero_mul]) le_rfl
    · exact fun h => Matrix3.Regular.of_move (by rwa [zero_mul]) le_rfl

end Verdict

/-- The square still has an estimate when its destinations are moved by the vector of three and
four, with the chosen decomposition. -/
theorem verdict_move_square :
    letI : Spectral ℝ := Spectral.chosen
    estimate? rankTolerance (square.map (·.move ⟨0, 0⟩ ⟨3, 4⟩)) ≠ none := by
  let spectral : Spectral ℝ := Spectral.chosen
  have hexact : Spectral.Exact := Spectral.chosen_exact
  obtain ⟨k, hk, hcandidate⟩ := candidate?_square
  have hdistortion : Matrix3.distortion ⟨0, 0⟩ ⟨3, 4⟩ = 36 := by
    have hfive : Real.sqrt 25 = 5 := (Real.sqrt_eq_iff_eq_sq (by norm_num) (by norm_num)).mpr
      (by norm_num)
    norm_num [Matrix3.distortion, Point.length, Point.squaredLength, hfive]
  have hsame := (verdict_move square ⟨0, 0⟩ ⟨3, 4⟩).2.2.1 fun H hH _ => by
    obtain rfl := Option.some.inj (hcandidate.symm.trans hH)
    refine (Matrix3.regular_one ?_).scale hk
    rw [hdistortion]
    norm_num [Matrix3.rankTolerance]
  exact fun hnone => estimate?_square (hsame.mp hnone)

/-- The square has no estimate any more when its destinations are moved far away. -/
theorem not_verdict_move_square :
    letI : Spectral ℝ := Spectral.chosen
    ¬ (estimate? rankTolerance (square.map (·.move ⟨0, 0⟩ ⟨10 ^ 7, 0⟩)) = none ↔
      estimate? rankTolerance square = none) := by
  let spectral : Spectral ℝ := Spectral.chosen
  have hexact : Spectral.Exact := Spectral.chosen_exact
  obtain ⟨k, hk, hcandidate⟩ := candidate?_square
  intro hsame
  refine estimate?_square (hsame.mp ?_)
  rw [estimate?_eq, estimateWithin?_move_eq_none_iff]
  intro H hH hregular
  obtain rfl := Option.some.inj (hcandidate.symm.trans hH)
  rw [Matrix3.move_scale] at hregular
  have hback := hregular.scale (inv_ne_zero hk)
  rw [Matrix3.scale_scale, inv_mul_cancel₀ hk, Matrix3.one_scale, Matrix3.one_move] at hback
  -- One vector is stretched by the distance and another one is shrunk by it.
  have hstretch := hback.squaredLength_le (Exact.decimal_pos Nat.one_pos 12).le ⟨0, 0, 1⟩
    ⟨-(10 ^ 7), 0, 1⟩
  norm_num [translation, Matrix3.act, Homogeneous.squaredLength, Matrix3.rankTolerance]
    at hstretch

end Linear

end Projectivity
