import Projectivity.Proofs.Homography.Ending
import Projectivity.Proofs.Homography.History

/-!
# The model that a report belongs to

An estimation reports the partition by the homography that its search has found, at the
threshold that it reports.  The refinement then replaces that homography, on the inliers
of the report, and leaves the report alone.  So the report belongs to the refined
homography as well only if the refinement moves no correspondence across the threshold.
-/

set_option autoImplicit false

namespace Projectivity.Estimator

section Reports

variable {α σ : Type} [Scalar α] [Summation α] [Spectral α]
variable (draw : Sampler σ) (e : Estimator α σ) (data : List (Correspondence α))

/-- The report of an estimator is the partition of correspondences by a homography, at the
threshold of the report. -/
def PartitionsBy (H : Homography α) : Prop :=
  ∃ threshold, e.fitter.summary.map Fitting.Summary.threshold = some threshold ∧
    e.fitter.inliers = data.filter (fun c => (e.direction.residual H.matrix c).le threshold) ∧
    e.fitter.outliers = data.filter fun c => !(e.direction.residual H.matrix c).le threshold

/-- Every correspondence is on the same side of the reported threshold under two homographies. -/
def NoneCrosses (G H : Homography α) : Prop :=
  ∀ threshold, e.fitter.summary.map Fitting.Summary.threshold = some threshold →
    ∀ c ∈ data, (e.direction.residual G.matrix c).le threshold =
      (e.direction.residual H.matrix c).le threshold

/-- What the report of an estimation that succeeds says about its search, and about the refined
homography. -/
structure ReportsFound : Prop where
  /-- The refinement has replaced the homography of the search by what it returns for that
  homography and the reported inliers. -/
  refined : ∃ outcome,
    e.refinement.refine e.solver (e.search draw data).state.model.matrix
      (e.fit draw data).state.fitter.inliers = .ok outcome ∧
      (e.fit draw data).state.model.matrix = outcome.matrix
  partition : (e.fit draw data).state.PartitionsBy data (e.search draw data).state.model
  own_iff : (e.fit draw data).state.PartitionsBy data (e.fit draw data).state.model ↔
    (e.fit draw data).state.NoneCrosses data (e.search draw data).state.model
      (e.fit draw data).state.model

variable {e data}

omit [Summation α] in
/-- A report that is the partition by one homography is that by another one exactly if no
correspondence changes sides. -/
theorem PartitionsBy.iff_noneCrosses {G H : Homography α} (hG : e.PartitionsBy data G) :
    e.PartitionsBy data H ↔ e.NoneCrosses data G H := by
  obtain ⟨threshold, hthreshold, hinliers, houtliers⟩ := hG
  constructor
  · rintro ⟨other, hother, hsame, -⟩ reported hreported c hc
    rw [hthreshold, Option.some.injEq] at hother hreported
    subst hother hreported
    rw [hinliers] at hsame
    -- A correspondence within the threshold is in the list of inliers, which is both lists.
    have hmem := congrArg (c ∈ ·) hsame
    simp only [List.mem_filter, hc, true_and, eq_iff_iff] at hmem
    exact Bool.eq_iff_iff.mpr hmem
  · intro hsides
    refine ⟨threshold, hthreshold, ?_, ?_⟩
    · rw [hinliers]
      exact List.filter_congr fun c hc => hsides threshold hthreshold c hc
    · rw [houtliers]
      exact List.filter_congr fun c hc => by rw [hsides threshold hthreshold c hc]

/-- An estimation that succeeds reports the partition by the homography that its search has found,
for every source of samples, every refinement and every solver. -/
theorem fit_reportsFound (h : (e.fit draw data).answer = .ok true) : e.ReportsFound draw data := by
  have hends := e.endsRefined_of_answer draw data h
  obtain ⟨threshold, hthreshold, hinliers, houtliers, -⟩ :=
    (e.succeeds_of_found draw data hends.found).exists_threshold
  have hfound : (e.fit draw data).state.PartitionsBy data (e.search draw data).state.model := by
    have hdirection : (e.fit draw data).state.direction = e.direction :=
      congrArg Arguments.direction (arguments_fit draw e data)
    refine ⟨threshold, ?_, ?_, ?_⟩
    · rw [e.summary_fit draw data]
      exact hthreshold
    · rw [hdirection]
      exact (e.inliers_fit draw data).trans hinliers
    · rw [hdirection]
      exact (e.outliers_fit draw data).trans houtliers
  exact ⟨hends.refined, hfound, hfound.iff_noneCrosses⟩

end Reports

section Dilated

open Matrix3 (dilation)

/-- A correspondence of two points on the diagonal. -/
def diagonal (a b : ℤ) : Correspondence ℝ := ⟨⟨a, a⟩, ⟨b, b⟩⟩

/-- The corners of the square, and two points further out that are moved outwards. -/
def dilatedInliers : List (Correspondence ℝ) := square ++ [diagonal 4 10, diagonal (-4) (-10)]

/-- The same correspondences with a point that is moved by more than the threshold allows. -/
def dilated : List (Correspondence ℝ) := dilatedInliers ++ [diagonal 5 13]

/-- The settings of a search with a single sample and without refits. -/
noncomputable def dilatedSettings : Fitting.Ransac.Settings ℝ :=
  ⟨.finite ((100 : ℕ) : ℝ), 1, 1, false⟩

/-- A fitter that was never used and asks for six inliers. -/
noncomputable def dilatedState :
    Fitting.Ransac.State (Homography ℝ) (Correspondence ℝ) ℝ (Stopping ℝ) ℕ :=
  ⟨Homography.identity, .ofRule (.count 6), 0, none⟩

/-- An estimator whose solver ends at the identity of the normalized coordinates, which is the
dilation between the two views. -/
noncomputable def dilatedEstimator : Estimator ℝ ℕ :=
  ⟨.ransac dilatedSettings dilatedState, .forward, .forward, fun _ _ => .ok ⟨Matrix3.one, true⟩,
    false⟩

/-- The frame of the dilated inliers dilates both views back. -/
theorem frame_dilated : Refinement.Frame.ofData? dilatedInliers =
    some ⟨dilation 2⁻¹, dilation 4⁻¹⟩ := by
  have hlength : ∀ k : ℝ, 0 ≤ k → Real.sqrt (k ^ 2 + k ^ 2) = k * Real.sqrt 2 := by
    intro k hk
    rw [← mul_two, Real.sqrt_mul (sq_nonneg k), Real.sqrt_sq hk]
  have hsource : Normalization.transform? (Correspondence.sources dilatedInliers) =
      some (dilation 2⁻¹) := by
    apply Normalization.transform?_of_centered (by norm_num)
    · simp [Point.centroid, Correspondence.sources, dilatedInliers, diagonal, square,
        Scalar.mean]
    · simp [Normalization.meanDistance, Correspondence.sources, dilatedInliers, diagonal, square,
        Scalar.mean, Point.sub, Point.length, Point.squaredLength, hlength]
      norm_num
      ring
  have hdestination : Normalization.transform? (Correspondence.destinations dilatedInliers) =
      some (dilation 4⁻¹) := by
    apply Normalization.transform?_of_centered (by norm_num)
    · simp [Point.centroid, Correspondence.destinations, dilatedInliers, diagonal, square,
        Scalar.mean]
    · simp [Normalization.meanDistance, Correspondence.destinations, dilatedInliers, diagonal,
        square, Scalar.mean, Point.sub, Point.length, Point.squaredLength, hlength]
      norm_num
      ring
  simp [Refinement.Frame.ofData?, hsource, hdestination]

section Run

variable [Spectral ℝ] [Spectral.Exact]

/-- The search finds the identity from its sample, with all correspondences but the last one. -/
theorem search_dilated : ∃ G, G.Represents Matrix3.one ∧
    (dilatedEstimator.search squareDraw dilated).answer = .ok true ∧
    (dilatedEstimator.search squareDraw dilated).state.model = ⟨G⟩ ∧
    ∃ iterations, (dilatedEstimator.search squareDraw dilated).state.summary =
      some ⟨true, dilatedInliers, [diagonal 5 13], iterations, dilatedSettings.threshold, .count 6⟩ := by
  obtain ⟨G, hG⟩ := Option.ne_none_iff_exists'.mp estimate?_square
  have hrepresents := noiseless_square.represents_of_estimate (fun c hc => hc) hG
  have hfirst : Fitting.FirstAccepted squareDraw (Homography.family .forward) dilated
      dilatedState.model dilatedState.sampler 0 ⟨G⟩ := by
    refine ⟨fun j hj => absurd hj (Nat.not_lt_zero j), square, rfl, ?_⟩
    show Option.map _ _ = _
    rw [hG]
    rfl
  have hmask : Fitting.classify (Homography.family .forward) ⟨G⟩ dilated
      dilatedSettings.threshold = [true, true, true, true, true, true, false] := by
    have hresidual := Transfer.residual_of_dilation (s := 1) hrepresents.proportional (by norm_num)
    simp [Fitting.classify, Homography.family, hresidual, Extended.le, dilatedSettings, dilated,
      dilatedInliers, diagonal, square]
    norm_num
  have hmany : Linear.minItems ≤ dilated.length := by decide
  have hmarks : Fitting.marks (Fitting.classify (Homography.family .forward) ⟨G⟩ dilated
      dilatedSettings.threshold) = 6 := by
    rw [hmask]
    rfl
  have henough : Linear.minItems ≤ Fitting.marks (Fitting.classify (Homography.family .forward) ⟨G⟩
      dilated dilatedSettings.threshold) := by
    rw [hmarks]
    decide
  obtain ⟨s, hfit⟩ := Fitting.Ransac.fit_of_count rfl hmany hfirst (by decide)
    (Int.ofNat_le.mpr hmarks.ge) henough rfl
  have hsearch : dilatedEstimator.search squareDraw dilated =
      (Fitter.ransac dilatedSettings dilatedState).fit (Homography.family .forward) squareDraw
        dilated := rfl
  rw [hsearch, Fitter.fit, hfit, hmask]
  exact ⟨G, hrepresents, rfl, rfl, s.iterations, rfl⟩

/-- The refinement replaces the identity by the dilation, which is cheaper. -/
theorem refine_dilated {G : Matrix3 ℝ} (hG : G.Represents Matrix3.one) :
    dilatedEstimator.refinement.refine dilatedEstimator.solver G dilatedInliers =
      .ok ⟨(dilation 2).canonicalScale, []⟩ := by
  have hinitial : G.isNonSingular Matrix3.rankTolerance = true := by
    obtain ⟨c, hc, rfl⟩ := hG.proportional
    exact isNonSingular_scale_one hc
  have hleave : (⟨dilation 2⁻¹, dilation 4⁻¹⟩ : Refinement.Frame ℝ).leave Matrix3.one =
      dilation 2 := by
    unfold Refinement.Frame.leave
    rw [Matrix3.inverse_dilation (by norm_num), Matrix3.mul_one, Matrix3.dilation_mul]
    norm_num
  have hregular := Matrix3.isNonSingular_dilation (s := 2) (by norm_num) (by norm_num)
  have hdet : (dilation 2).det ≠ 0 := Matrix3.det_ne_zero_of_isNonSingular hregular
  have hbefore : Refinement.forward.cost G dilatedInliers = 144 := by
    simp [Refinement.cost, Refinement.vector,
      ErrorVector.forward_of_dilation (s := 1) hG.proportional (by norm_num), dilatedInliers,
      diagonal, square, Scalar.dot]
    norm_num
  have hafter : Refinement.forward.cost (dilation 2).canonicalScale dilatedInliers ≤ 144 := by
    simp [Refinement.cost, Refinement.vector,
      ErrorVector.forward_of_dilation (Matrix3.canonicalScale_proportional hdet) (by norm_num),
      dilatedInliers, diagonal, square, Scalar.dot]
    norm_num
  have henough : ¬ dilatedInliers.length < Linear.minItems := by decide
  simp only [dilatedEstimator, Refinement.refine, hinitial, frame_dilated, henough,
    Refinement.conclude, hleave, hregular, hbefore, if_pos hafter]
  rfl

/-- The estimation succeeds and leaves the dilation behind. -/
theorem fit_dilated :
    (dilatedEstimator.fit squareDraw dilated).answer = .ok true ∧
      (dilatedEstimator.fit squareDraw dilated).state.model =
        ⟨(dilation 2).canonicalScale⟩ := by
  obtain ⟨G, hG, hfound, hmodel, iterations, hsummary⟩ := search_dilated
  have hrefine : dilatedEstimator.refinement.refine dilatedEstimator.solver
      (dilatedEstimator.search squareDraw dilated).state.model.matrix
      (dilatedEstimator.search squareDraw dilated).state.inliers =
        .ok ⟨(dilation 2).canonicalScale, []⟩ := by
    unfold Fitter.inliers
    rw [hmodel, hsummary]
    exact refine_dilated hG
  obtain ⟨hstate, hanswer⟩ := fit_of_refined squareDraw _ dilated hfound hrefine rfl
  refine ⟨hanswer, ?_⟩
  rw [hstate]
  exact Fitter.model_withModel (Homography.mk (dilation 2).canonicalScale)
    (dilatedEstimator.search squareDraw dilated).state

end Run

/-- The fit of the dilated correspondences reports what it found. -/
theorem fit_reportsFound_dilated :
    letI : Spectral ℝ := Spectral.chosen
    (dilatedEstimator.fit squareDraw dilated).answer = .ok true ∧
      dilatedEstimator.ReportsFound squareDraw dilated := by
  let spectral : Spectral ℝ := Spectral.chosen
  have hexact : Spectral.Exact := Spectral.chosen_exact
  obtain ⟨hanswer, -⟩ := fit_dilated
  exact ⟨hanswer, fit_reportsFound squareDraw hanswer⟩

/-- The report does not belong to the refined homography if the refinement brings an outlier
within the threshold. -/
theorem not_fit_partitionsBy_refined :
    letI : Spectral ℝ := Spectral.chosen
    (dilatedEstimator.fit squareDraw dilated).answer = .ok true ∧
      ¬ (dilatedEstimator.fit squareDraw dilated).state.PartitionsBy dilated
        (dilatedEstimator.fit squareDraw dilated).state.model := by
  let spectral : Spectral ℝ := Spectral.chosen
  have hexact : Spectral.Exact := Spectral.chosen_exact
  obtain ⟨hanswer, hmodel⟩ := fit_dilated
  refine ⟨hanswer, ?_⟩
  rintro ⟨threshold, hthreshold, hinliers, -⟩
  obtain ⟨-, -, -, -, iterations, hsummary⟩ := search_dilated
  have hreport := (summary_fit squareDraw dilatedEstimator dilated).trans hsummary
  rw [hreport, Option.map_some, Option.some.injEq] at hthreshold
  subst hthreshold
  have hdet : (dilation 2).det ≠ 0 := by
    rw [Matrix3.det_dilation]
    norm_num
  have hresidual := Transfer.residual_of_dilation (Matrix3.canonicalScale_proportional hdet)
    (by norm_num)
  have hdirection : (dilatedEstimator.fit squareDraw dilated).state.direction = .forward :=
    congrArg Arguments.direction (arguments_fit squareDraw dilatedEstimator dilated)
  -- All of the correspondences are within the threshold of the dilation, but one is an outlier.
  have hall : ∀ c ∈ dilated, (Transfer.forward.residual (dilation 2).canonicalScale c).le
      dilatedSettings.threshold = true := by
    simp [hresidual, dilatedSettings, dilated, dilatedInliers, diagonal, square, Extended.le]
    norm_num
  unfold Fitter.inliers at hinliers
  rw [hreport, hdirection, hmodel, List.filter_eq_self.mpr hall] at hinliers
  have hlength : dilatedInliers.length = dilated.length := congrArg List.length hinliers
  exact absurd hlength (by decide)

end Dilated

end Projectivity.Estimator
