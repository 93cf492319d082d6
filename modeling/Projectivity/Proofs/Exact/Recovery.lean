import Projectivity.Proofs.Exact.Dilation
import Projectivity.Proofs.Exact.Search
import Projectivity.Proofs.Homography.Refinement
import Projectivity.Proofs.Homography.Search

/-!
# Exact recovery

Data without errors give the transform back from which they come.  A single accepted
sample determines the transform up to its factor, all correspondences agree with it,
and a refinement that starts at cost zero can end at cost zero only, which leaves the
transform as it is whatever the solver does.
-/

set_option autoImplicit false

namespace Projectivity

/-- Data without errors under a non-singular transform. -/
structure Noiseless (H : Matrix3 ℝ) (data : List (Correspondence ℝ)) : Prop where
  regular : H.det ≠ 0
  enough : Linear.minItems ≤ data.length
  matched : ∀ c ∈ data, H.Matches c

/-- A transform of norm one that differs from another one by a factor only. -/
structure Matrix3.Represents (G H : Matrix3 ℝ) : Prop where
  proportional : G.Proportional H
  norm_eq : G.norm = 1

/-- The tolerance of the rank is not negative. -/
theorem Linear.rankTolerance_nonneg : (0 : ℝ) ≤ rankTolerance :=
  (Exact.decimal_pos Nat.one_pos 10).le

/-- The estimate from a sample that a non-singular transform carries is that transform, of norm one
and with a last entry that is not negative. -/
theorem Linear.represents_of_estimate [Spectral ℝ] [Spectral.Exact] {tolerance : ℝ}
    {sample : List (Correspondence ℝ)} {G H : Matrix3 ℝ} (htolerance : 0 ≤ tolerance)
    (hG : estimate? tolerance sample = some G) (hdet : H.det ≠ 0)
    (hcarries : ∀ c ∈ sample, H.Carries c) : G.Represents H ∧ 0 ≤ G.m33 := by
  obtain ⟨hnorm, hlast⟩ := estimate_canonical hG
  exact ⟨⟨estimate_proportional htolerance hG hdet hcarries, hnorm⟩, hlast⟩

section Noiseless

variable [Spectral ℝ] {H : Matrix3 ℝ} {data : List (Correspondence ℝ)}

/-- Every correspondence without error agrees with a representing transform, for every threshold
that is not negative. -/
theorem Noiseless.agrees (h : Noiseless H data) {threshold : Extended ℝ}
    (hthreshold : Extended.zero.le threshold = true) {G : Homography ℝ}
    (hG : G.matrix.Represents H) {c : Correspondence ℝ} (hc : c ∈ data) :
    Fitting.agrees (Homography.family .forward) threshold G c = true := by
  have himage := ((h.matched c hc).of_proportional h.regular hG.proportional).forward
  have hresidual : (Homography.family (α := ℝ) .forward).residual G c = .zero := by
    simp [Homography.family, Transfer.residual, Transfer.forwardError, himage,
      Transfer.squaredError, Point.sub, Point.squaredLength, Extended.bounded, Extended.zero]
  unfold Fitting.agrees
  rw [hresidual]
  exact hthreshold

variable [Spectral.Exact]

/-- An estimate from a sample of correspondences without noise represents the transform. -/
theorem Noiseless.represents_of_estimate (h : Noiseless H data) {sample : List (Correspondence ℝ)}
    (hsample : ∀ c ∈ sample, c ∈ data) {G : Matrix3 ℝ}
    (hG : Linear.estimate? Linear.rankTolerance sample = some G) : G.Represents H := by
  have hcarries : ∀ c ∈ sample, H.Carries c := fun c hc => (h.matched c (hsample c hc)).carries
  exact (Linear.represents_of_estimate Linear.rankTolerance_nonneg hG h.regular hcarries).1

/-- The transforms that represent a transform are the good models of its data. -/
theorem Noiseless.perfect (h : Noiseless H data) {threshold : Extended ℝ}
    (hthreshold : Extended.zero.le threshold = true) :
    Fitting.Perfect (Homography.family .forward) data threshold
      fun G => G.matrix.Represents H := by
  constructor
  · intro G hG c hc
    exact h.agrees hthreshold hG hc
  · intro G next _ hnext
    obtain ⟨K, hK, rfl⟩ := Option.map_eq_some_iff.mp hnext
    exact h.represents_of_estimate (fun c hc => hc) hK

/-- A refinement of a representing transform on data without errors that is not broken off returns
the same transform up to a factor, whatever point the solver ends at. -/
theorem Noiseless.refine (h : Noiseless H data) {sample : List (Correspondence ℝ)}
    (hsample : ∀ c ∈ sample, c ∈ data)
    (haccepted : Linear.estimate? Linear.rankTolerance sample ≠ none) (mode : Refinement)
    {solver : Refinement.Solver ℝ} {G : Matrix3 ℝ} (hG : G.Represents H)
    (hwhole : ∀ cause, ¬ mode.BreaksOff solver G data cause) :
    ∃ outcome, mode.refine solver G data = .ok outcome ∧ outcome.matrix.Proportional H := by
  obtain ⟨outcome, hok, hsame | himproves⟩ := mode.exists_refine_eq_ok G data hwhole
  · exact ⟨outcome, hok, hsame ▸ hG.proportional⟩
  refine ⟨outcome, hok, ?_⟩
  have hdata : data ≠ [] := Linear.ne_nil_of_enough h.enough
  -- The start costs nothing, and so nothing can be cheaper than it.
  have hstart : mode.cost G data = 0 :=
    Refinement.cost_eq_zero_of_matches hdata hG.norm_eq himproves.regular
      fun c hc => (h.matched c hc).of_proportional h.regular hG.proportional
  have hend : mode.cost outcome.matrix data = 0 :=
    le_antisymm (hstart ▸ himproves.cost_le) Refinement.cost_nonneg
  obtain ⟨K, hK, hscaled⟩ := himproves.scaled
  have hdet : outcome.matrix.det ≠ 0 := by
    have hKdet := Matrix3.det_ne_zero_of_isNonSingular hK
    rw [hscaled]
    exact (Matrix3.canonicalScale_proportional hKdet).det_ne_zero hKdet
  have hcarries := Refinement.carries_of_cost_eq_zero hdet hend
  exact Linear.proportional_of_carries Linear.rankTolerance_nonneg haccepted hdet h.regular
    (fun c hc => hcarries c (hsample c hc)) (fun c hc => (h.matched c (hsample c hc)).carries)

end Noiseless

section Square

/-- The corners of a square, each of them matched with itself. -/
def square : List (Correspondence ℝ) :=
  [⟨⟨1, 1⟩, ⟨1, 1⟩⟩, ⟨⟨-1, 1⟩, ⟨-1, 1⟩⟩, ⟨⟨-1, -1⟩, ⟨-1, -1⟩⟩, ⟨⟨1, -1⟩, ⟨1, -1⟩⟩]

/-- The linear system of the square. -/
def squareSystem : Matrix (Fin 8) (Fin 9) ℝ :=
  !![1, 1, 1, 0, 0, 0, -1, -1, -1;
    0, 0, 0, 1, 1, 1, -1, -1, -1;
    -1, 1, 1, 0, 0, 0, -1, 1, 1;
    0, 0, 0, -1, 1, 1, 1, -1, -1;
    -1, -1, 1, 0, 0, 0, -1, -1, 1;
    0, 0, 0, -1, -1, 1, -1, -1, 1;
    1, -1, 1, 0, 0, 0, -1, 1, -1;
    0, 0, 0, 1, -1, 1, 1, -1, 1]

/-- The squared length of the image of a vector under the system of the square. -/
def squareForm (x : Fin 9 → ℝ) : ℝ :=
  4 * ((x 0 - x 8) ^ 2 + x 1 ^ 2 + (x 2 - x 6) ^ 2 + x 7 ^ 2 + (x 4 - x 8) ^ 2 + x 3 ^ 2 +
    (x 5 - x 7) ^ 2 + x 6 ^ 2)

/-- The squared length of a vector. -/
def squaredNorm (x : Fin 9 → ℝ) : ℝ := ∑ j, x j * x j

/-- The first singular value of the system of the square is not large. -/
theorem squareForm_le (x : Fin 9 → ℝ) : squareForm x ≤ 16 * squaredNorm x := by
  unfold squareForm squaredNorm
  simp only [Fin.sum_univ_succ, Fin.sum_univ_zero]
  simp
  linarith [sq_nonneg (x 0 + x 8), sq_nonneg (x 2 + x 6), sq_nonneg (x 4 + x 8),
    sq_nonneg (x 5 + x 7), sq_nonneg (x 0), sq_nonneg (x 1), sq_nonneg (x 2), sq_nonneg (x 3),
    sq_nonneg (x 4), sq_nonneg (x 5), sq_nonneg (x 6), sq_nonneg (x 7)]

/-- The system of the square shortens no vector that is orthogonal to the identity. -/
theorem le_squareForm {x : Fin 9 → ℝ} (h : x 0 + x 4 + x 8 = 0) :
    squaredNorm x ≤ squareForm x := by
  have hlast : x 8 = -(x 0 + x 4) := by linarith
  unfold squareForm squaredNorm
  simp only [Fin.sum_univ_succ, Fin.sum_univ_zero]
  simp [hlast]
  linarith [sq_nonneg (x 0 + x 4), sq_nonneg (2 * x 2 - 3 * x 6), sq_nonneg (2 * x 5 - 3 * x 7),
    sq_nonneg (x 0), sq_nonneg (x 1), sq_nonneg (x 2), sq_nonneg (x 3), sq_nonneg (x 4),
    sq_nonneg (x 5), sq_nonneg (x 6), sq_nonneg (x 7)]

/-- Only multiples of the identity solve the system of the square. -/
theorem eq_of_squareForm_eq_zero {x : Fin 9 → ℝ} (h : squareForm x = 0) :
    x = fun j => x 8 * ![1, 0, 0, 0, 1, 0, 0, 0, 1] j := by
  unfold squareForm at h
  have h0 := sq_nonneg (x 0 - x 8)
  have h1 := sq_nonneg (x 1)
  have h2 := sq_nonneg (x 2 - x 6)
  have h3 := sq_nonneg (x 3)
  have h4 := sq_nonneg (x 4 - x 8)
  have h5 := sq_nonneg (x 5 - x 7)
  have h6 := sq_nonneg (x 6)
  have h7 := sq_nonneg (x 7)
  have e0 : x 0 - x 8 = 0 := pow_eq_zero_iff two_ne_zero |>.mp (by linarith)
  have e1 : x 1 = 0 := pow_eq_zero_iff two_ne_zero |>.mp (by linarith)
  have e2 : x 2 - x 6 = 0 := pow_eq_zero_iff two_ne_zero |>.mp (by linarith)
  have e3 : x 3 = 0 := pow_eq_zero_iff two_ne_zero |>.mp (by linarith)
  have e4 : x 4 - x 8 = 0 := pow_eq_zero_iff two_ne_zero |>.mp (by linarith)
  have e5 : x 5 - x 7 = 0 := pow_eq_zero_iff two_ne_zero |>.mp (by linarith)
  have e6 : x 6 = 0 := pow_eq_zero_iff two_ne_zero |>.mp (by linarith)
  have e7 : x 7 = 0 := pow_eq_zero_iff two_ne_zero |>.mp (by linarith)
  funext j
  fin_cases j <;> simp <;> linarith

/-- The singular values of the square are those of its form. -/
theorem square_values_sq (d : Decomposition squareSystem) (i : Fin 9) :
    d.values i ^ 2 = squareForm fun j => d.vectors j i := by
  rw [d.values_sq]
  simp [Fin.sum_univ_succ, Matrix.mulVec, dotProduct, squareSystem, squareForm]
  ring

/-- The eighth singular value of the system of the square is not small against the first. -/
theorem square_gap (d : Decomposition squareSystem) :
    ¬ d.values 7 ≤ Linear.rankTolerance * d.values 0 := by
  have hlength : ∀ i, squaredNorm (fun j => d.vectors j i) = 1 := fun i => by
    rw [squaredNorm, d.vectors_dot, if_pos rfl]
  have hidentity : squareSystem.mulVec ![1, 0, 0, 0, 1, 0, 0, 0, 1] = 0 := by
    ext i
    fin_cases i <;> simp [Matrix.mulVec, dotProduct, Fin.sum_univ_succ, squareSystem]
  have htrace : d.values 7 ^ 2 = 0 ∨ d.vectors 0 7 + d.vectors 4 7 + d.vectors 8 7 = 0 := by
    have hpart := mul_eq_zero.mp (d.values_mul_part hidentity 7)
    simpa [Matrix.mulVec, dotProduct, Fin.sum_univ_succ, add_assoc] using hpart
  -- Two singular values of zero would belong to multiples of the identity.
  have hpositive : d.values 7 ^ 2 ≠ 0 := by
    intro hzero
    have hseven := pow_eq_zero_iff two_ne_zero |>.mp hzero
    have height : d.values 8 = 0 :=
      le_antisymm (hseven ▸ d.descending (by decide)) (d.nonneg 8)
    have hx := eq_of_squareForm_eq_zero ((square_values_sq d 7).symm.trans hzero)
    have hy := eq_of_squareForm_eq_zero ((square_values_sq d 8).symm.trans (by rw [height]; ring))
    exact d.not_multiples (by decide) hx hy
  have hseven : 1 ≤ d.values 7 ^ 2 := by
    have hle := le_squareForm (x := fun j => d.vectors j 7) (htrace.resolve_left hpositive)
    rwa [hlength, ← square_values_sq] at hle
  have hzero : d.values 0 ^ 2 ≤ 16 := by
    have hle := squareForm_le fun j => d.vectors j 0
    rwa [hlength, ← square_values_sq, mul_one] at hle
  intro hsmall
  simp only [Linear.rankTolerance, Exact.decimal_eq] at hsmall
  have hfirst : d.values 0 ≤ 4 := abs_le_of_sq_le_sq' (by linarith) (by norm_num) |>.2
  have hle : d.values 7 ≤ 1 / 2 := by
    norm_num at hsmall
    linarith
  nlinarith [d.nonneg 7]

/-- The rows of the matrix of the square are its system. -/
theorem rowsOf_squareSystem :
    rowsOf squareSystem = Linear.system Matrix3.one Matrix3.one square := by
  simp [rowsOf, squareSystem, Linear.system, square, Linear.equations, Normalization.normalize,
    Matrix3.one, Matrix3.apply, Matrix3.act, List.ofFn_succ]

/-- The corners of the square are in normalized coordinates. -/
theorem transform?_square :
    Normalization.transform? (Correspondence.sources square) = some Matrix3.one := by
  have hcentroid : Point.centroid (Correspondence.sources square) = ⟨0, 0⟩ := by
    simp [Point.centroid, Correspondence.sources, square, Scalar.mean]
  have hdistance : Normalization.meanDistance (Correspondence.sources square) ⟨0, 0⟩ =
      Real.sqrt 2 := by
    simp [Normalization.meanDistance, Correspondence.sources, square, Scalar.mean, Point.sub,
      Point.length, Point.squaredLength]
    ring_nf
  have htransform := Normalization.transform?_of_centered le_rfl hcentroid
    (hdistance.trans (one_mul _).symm)
  rwa [inv_one, Matrix3.dilation_one] at htransform

/-- The identity maps the square to itself without errors. -/
theorem noiseless_square : Noiseless Matrix3.one square := by
  have hproject : ∀ p : Point ℝ, Matrix3.one.project? Matrix3.infinityTolerance p = some p := by
    intro p
    have himage := Matrix3.project?_dilation (s := 1) (by norm_num) p
    rwa [Matrix3.dilation_one, one_mul, one_mul] at himage
  refine ⟨by simp, by decide, ?_⟩
  intro c hc
  have hsame : c.destination = c.source := by
    simp only [square, List.mem_cons, List.not_mem_nil, or_false] at hc
    rcases hc with rfl | rfl | rfl | rfl <;> rfl
  refine ⟨?_, ?_⟩
  · rw [hsame]
    exact hproject c.source
  · rw [Matrix3.inverse_one, hsame]
    exact hproject c.source

variable [Spectral ℝ] [Spectral.Exact]

/-- A multiple of the identity counts as non-singular. -/
theorem isNonSingular_scale_one {c : ℝ} (hc : c ≠ 0) :
    (Matrix3.one.scale c).isNonSingular Matrix3.rankTolerance = true := by
  rw [Matrix3.isNonSingular_scale hc, ← Matrix3.dilation_one]
  exact Matrix3.isNonSingular_dilation le_rfl (by norm_num)

/-- The candidate from the square is a multiple of the identity. -/
theorem candidate?_square : ∃ k : ℝ, k ≠ 0 ∧
    Linear.candidate? Linear.rankTolerance square = some (Matrix3.one.scale k) := by
  obtain ⟨d, hd⟩ := Spectral.Exact.decomposes squareSystem (by decide)
  rw [rowsOf_squareSystem] at hd
  have hsolution : ∃ G, Linear.solution? Linear.rankTolerance
      (Linear.system Matrix3.one Matrix3.one square) = some G := by
    have hfirst : d.spectrum.values[0]? = some (d.values 0) := by
      simp [Decomposition.spectrum]
    have height : d.spectrum.values[7]? = some (d.values 7) := by
      simp [Decomposition.spectrum]
    have hkernel : d.spectrum.vectors[8]? = some (List.ofFn fun i => d.vectors i 8) := by
      simp [Decomposition.spectrum]
    simp only [Linear.solution?, hd, hfirst, height, hkernel, if_neg (square_gap d)]
    simp [List.ofFn_succ, Matrix3.ofEntries?]
  obtain ⟨G, hG⟩ := hsolution
  have hone : ∀ r ∈ Linear.system Matrix3.one Matrix3.one square,
      ∑ j : Fin 9, r.getD j 0 * Linear.unknowns Matrix3.one j = 0 := by
    intro r hr
    obtain ⟨c, hc, hr⟩ := List.mem_flatMap.mp hr
    have hnormal : ∀ p : Point ℝ, Normalization.normalize Matrix3.one p = p := by
      intro p
      simp [Normalization.normalize, Matrix3.one, Matrix3.apply, Matrix3.act]
    rw [hnormal, hnormal] at hr
    exact Linear.carries_iff_equations.mp (noiseless_square.matched c hc).carries r hr
  obtain ⟨k, hk⟩ :=
    Linear.eq_scale_of_solution Linear.rankTolerance_nonneg Linear.length_of_mem_system
      (by decide) hG hone
  obtain ⟨c, hc, rfl⟩ := (Matrix3.proportional_of_eq_scale (by simp) hk).symm
  refine ⟨c, hc, Linear.candidate?_eq_some_iff.mpr
    ⟨_, _, _, ⟨by decide, transform?_square, transform?_square, hG⟩, ?_⟩⟩
  simp

/-- The square is accepted as a sample. -/
theorem estimate?_square : Linear.estimate? Linear.rankTolerance square ≠ none := by
  obtain ⟨k, hk, hcandidate⟩ := candidate?_square
  rw [Linear.estimate?_eq]
  exact Option.ne_none_iff_exists'.mpr ⟨_, Linear.estimateWithin?_eq_some_iff.mpr
    ⟨_, hcandidate, isNonSingular_scale_one hk, rfl⟩⟩

end Square

namespace Estimator

/-- What an estimation that recovers a transform from data without errors leaves behind. -/
structure Recovers {σ : Type} (H : Matrix3 ℝ) (data : List (Correspondence ℝ))
    (threshold : Extended ℝ) (iterations : ℕ)
    (outcome : Fitting.Outcome (Estimator ℝ σ) Notice) : Prop where
  answer_eq : outcome.answer = .ok true
  /-- All correspondences are inliers. -/
  summary_eq : outcome.state.fitter.summary =
    some ⟨true, data, [], iterations, threshold, .count data.length⟩
  proportional : outcome.state.model.matrix.Proportional H
  /-- Every source is mapped exactly onto its destination, and back. -/
  matches_all : ∀ c ∈ data, outcome.state.model.matrix.Matches c

/-- An estimator that searches for consensus on the error in the destination view, under an adaptive
rule and with a threshold that is not negative. -/
structure SearchesConsensus {σ : Type} (e : Estimator ℝ σ)
    (settings : Fitting.Ransac.Settings ℝ) : Prop where
  fitter_eq : ∃ state, e.fitter = .ransac settings state ∧
    ∃ confidence, state.stopping.rule = .adaptive confidence
  direction_eq : e.direction = .forward
  threshold_nonneg : Extended.zero.le settings.threshold = true

section Square

/-- A source of samples that always draws the first items. -/
def squareDraw : Sampler ℕ := fun k _ size => (.ok (List.range size), k + 1)

/-- A search with a single sample. -/
noncomputable def squareSettings : Fitting.Ransac.Settings ℝ := ⟨.zero, 1, 1, true⟩

/-- An estimator that searches with a single sample and refines with a given solver. -/
noncomputable def squareEstimator (solver : Refinement.Solver ℝ) : Estimator ℝ ℕ :=
  ⟨.ransac squareSettings ⟨Homography.identity, .ofRule (.adaptive (Scalar.decimal 99 2)), 0, none⟩,
    .forward, .symmetric, solver, false⟩

/-- The estimator for the square searches a consensus. -/
theorem squareEstimator_searchesConsensus (solver : Refinement.Solver ℝ) :
    (squareEstimator solver).SearchesConsensus squareSettings := by
  refine ⟨⟨_, rfl, _, rfl⟩, rfl, ?_⟩
  simp [squareSettings, Extended.zero, Extended.le]

end Square

section Recovery

variable {σ : Type} [Spectral ℝ] {H : Matrix3 ℝ}
variable {data : List (Correspondence ℝ)} {draw : Sampler σ} {e : Estimator ℝ σ}

/-- What the search of an estimation that recovers a transform finds. -/
structure SearchRecovers (draw : Sampler σ) (e : Estimator ℝ σ) (H : Matrix3 ℝ)
    (data : List (Correspondence ℝ)) (threshold : Extended ℝ) (iterations : ℕ) : Prop where
  found : (e.search draw data).answer = .ok true
  represents : (e.search draw data).state.model.matrix.Represents H
  summary_eq : (e.search draw data).state.summary =
    some ⟨true, data, [], iterations, threshold, .count data.length⟩

/-- A search that recovers the transform has all correspondences as inliers. -/
theorem SearchRecovers.inliers_eq {threshold : Extended ℝ} {iterations : ℕ}
    (h : SearchRecovers draw e H data threshold iterations) :
    (e.search draw data).state.inliers = data := by
  unfold Fitter.inliers
  rw [h.summary_eq]

/-- All correspondences take part in the refinement that follows such a search. -/
theorem SearchRecovers.refine_eq {threshold : Extended ℝ} {iterations : ℕ}
    (h : SearchRecovers draw e H data threshold iterations) :
    e.refinement.refine e.solver (e.search draw data).state.model.matrix
        (e.search draw data).state.inliers =
      e.refinement.refine e.solver (e.search draw data).state.model.matrix data := by
  rw [h.inliers_eq]

variable [Spectral.Exact]

/-- A search on data without errors finds the transform with the first accepted draw. -/
theorem searchRecovers_of_firstAccepted (h : Noiseless H data)
    {settings : Fitting.Ransac.Settings ℝ} (hconsensus : e.SearchesConsensus settings) {k : ℕ}
    (hk : k < settings.maxIterations * settings.sampleTries) {found : Homography ℝ}
    (hfirst : Fitting.FirstAccepted draw (Homography.family .forward) data Homography.identity
      e.fitter.sampler k found) :
    SearchRecovers draw e H data settings.threshold (k / settings.sampleTries + 1) := by
  obtain ⟨state, hfitter, confidence, hrule⟩ := hconsensus.fitter_eq
  obtain ⟨sample, hsample, hestimate⟩ := hfirst.accepted
  obtain ⟨G, hG, rfl⟩ := Option.map_eq_some_iff.mp hestimate
  have hgood := h.represents_of_estimate (Fitting.mem_of_sampleAt draw hsample) hG
  rw [hfitter] at hfirst
  obtain ⟨hanswer, hmodel, hsummary⟩ :=
    Fitting.Ransac.fit_of_perfect { state with model := Homography.identity }
      (h.perfect hconsensus.threshold_nonneg) hrule (Nat.succ_pos 3) h.enough hfirst hk hgood
  have hsearch : e.search draw data =
      (Fitter.ransac settings { state with model := Homography.identity }).fit
        (Homography.family .forward) draw data := by
    unfold search fresh
    rw [hconsensus.direction_eq, hfitter]
    rfl
  constructor
  · rw [hsearch]
    exact hanswer
  · rw [hsearch]
    exact hmodel
  · rw [hsearch]
    exact hsummary

variable (draw)

/-- A search on data without errors finds the transform if it comes to an accepted draw. -/
theorem exists_searchRecovers (h : Noiseless H data) {settings : Fitting.Ransac.Settings ℝ}
    (hconsensus : e.SearchesConsensus settings) {n : ℕ}
    (hn : n < settings.maxIterations * settings.sampleTries)
    (hdraws : ∀ j < n, ∃ sample,
      Fitting.sampleAt draw data Linear.minItems e.fitter.sampler j = .ok sample)
    (haccepted : ∃ sample,
      Fitting.sampleAt draw data Linear.minItems e.fitter.sampler n = .ok sample ∧
        Linear.estimate? Linear.rankTolerance sample ≠ none) :
    ∃ k ≤ n, (∃ found, Fitting.FirstAccepted draw (Homography.family .forward) data
        Homography.identity e.fitter.sampler k found) ∧
      SearchRecovers draw e H data settings.threshold (k / settings.sampleTries + 1) := by
  obtain ⟨sample, hsample, hsome⟩ := haccepted
  have hestimate : (Homography.family (α := ℝ) .forward).estimate Homography.identity sample ≠
      none := fun hnone => hsome (Option.map_eq_none_iff.mp hnone)
  have hfirst : ∃ k ≤ n, ∃ found, Fitting.FirstAccepted draw (Homography.family .forward) data
      Homography.identity e.fitter.sampler k found :=
    Fitting.exists_firstAccepted hdraws ⟨sample, hsample, hestimate⟩
  obtain ⟨k, hk, found, hfirst⟩ := hfirst
  exact ⟨k, hk, ⟨found, hfirst⟩,
    searchRecovers_of_firstAccepted h hconsensus (Nat.lt_of_le_of_lt hk hn) hfirst⟩

variable {draw}

/-- What follows a search that finds the transform recovers it, unless it is broken off. -/
theorem SearchRecovers.recovers_iff (h : Noiseless H data) {sample : List (Correspondence ℝ)}
    (hsample : ∀ c ∈ sample, c ∈ data)
    (haccepted : Linear.estimate? Linear.rankTolerance sample ≠ none) {threshold : Extended ℝ}
    {iterations : ℕ} (hsearch : SearchRecovers draw e H data threshold iterations) :
    Recovers H data threshold iterations (e.fit draw data) ↔
      ∀ cause, ¬ e.refinement.BreaksOff e.solver (e.search draw data).state.model.matrix data
        cause := by
  constructor
  · intro hrecovers cause hbroken
    have hrefused :=
      hsearch.refine_eq.trans ((e.refinement.refine_error_iff _ _ cause).mpr hbroken)
    have hok := hrecovers.answer_eq
    rw [e.fit_of_refused draw data hsearch.found hrefused] at hok
    cases hok
  · intro hwhole
    obtain ⟨outcome, hrefine, hproportional⟩ :=
      h.refine hsample haccepted e.refinement hsearch.represents hwhole
    obtain ⟨hstate, hok⟩ :=
      e.fit_of_refined draw data hsearch.found (hsearch.refine_eq.trans hrefine) rfl
    have hmodel : (e.fit draw data).state.model = ⟨outcome.matrix⟩ := by
      rw [hstate]
      exact Fitter.model_withModel (Homography.mk outcome.matrix) (e.search draw data).state
    refine ⟨hok, ?_, ?_, ?_⟩
    · rw [hstate]
      exact (Fitter.summary_withModel _ _).trans hsearch.summary_eq
    · rw [hmodel]
      exact hproportional
    · rw [hmodel]
      exact fun c hc => (h.matched c hc).of_proportional h.regular hproportional

variable (draw)

/-- An estimation on data without errors recovers the transform as soon as a sample is accepted, for
every threshold and every mode of refinement, and for every outcome of the solver that does not
break the refinement off.  The search ends in the iteration of the first accepted draw. -/
theorem fit_recovers_iff (h : Noiseless H data) {settings : Fitting.Ransac.Settings ℝ}
    (hconsensus : e.SearchesConsensus settings) {n : ℕ}
    (hn : n < settings.maxIterations * settings.sampleTries)
    (hdraws : ∀ j < n, ∃ sample,
      Fitting.sampleAt draw data Linear.minItems e.fitter.sampler j = .ok sample)
    (haccepted : ∃ sample,
      Fitting.sampleAt draw data Linear.minItems e.fitter.sampler n = .ok sample ∧
        Linear.estimate? Linear.rankTolerance sample ≠ none) :
    ∃ k ≤ n, (∃ found, Fitting.FirstAccepted draw (Homography.family .forward) data
        Homography.identity e.fitter.sampler k found) ∧
      (Recovers H data settings.threshold (k / settings.sampleTries + 1) (e.fit draw data) ↔
        ∀ cause, ¬ e.refinement.BreaksOff e.solver (e.search draw data).state.model.matrix data
          cause) := by
  obtain ⟨k, hk, hfirst, hsearch⟩ := exists_searchRecovers draw h hconsensus hn hdraws haccepted
  obtain ⟨sample, hsample, hsome⟩ := haccepted
  exact ⟨k, hk, hfirst, hsearch.recovers_iff h (Fitting.mem_of_sampleAt draw hsample) hsome⟩

end Recovery

/-- The square is recovered from the first sample, with the chosen decomposition and with a solver
that stays where it starts. -/
theorem fit_recovers_square :
    letI : Spectral ℝ := Spectral.chosen
    let e := squareEstimator fun _ start => .ok ⟨start, true⟩
    ∃ k ≤ 0, (∃ found, Fitting.FirstAccepted squareDraw (Homography.family .forward) square
        Homography.identity e.fitter.sampler k found) ∧
      Recovers Matrix3.one square squareSettings.threshold (k / squareSettings.sampleTries + 1)
        (e.fit squareDraw square) := by
  intro e
  let spectral : Spectral ℝ := Spectral.chosen
  have hexact : Spectral.Exact := Spectral.chosen_exact
  have hconsensus : e.SearchesConsensus squareSettings := squareEstimator_searchesConsensus _
  obtain ⟨k, hk, hfirst, hrecovers⟩ := fit_recovers_iff squareDraw noiseless_square hconsensus
    (by decide) (fun j hj => absurd hj (Nat.not_lt_zero j)) ⟨square, rfl, estimate?_square⟩
  refine ⟨k, hk, hfirst, hrecovers.mpr fun cause hbroken => ?_⟩
  obtain ⟨F, -, hrefused⟩ := hbroken.refused
  cases hrefused

section Overflow

variable [Spectral ℝ] [Spectral.Exact]

/-- A solver that refuses with an overflow breaks the refinement of the square off. -/
theorem breaksOff_square {G : Matrix3 ℝ} (hG : G.Represents Matrix3.one) :
    Refinement.symmetric.BreaksOff (fun _ _ => .error .overflow) G square .overflow := by
  have hdestination : Normalization.transform? (Correspondence.destinations square) =
      some Matrix3.one := transform?_square
  obtain ⟨c, hc, rfl⟩ := hG.proportional
  refine ⟨by decide, by decide, isNonSingular_scale_one hc, ⟨⟨Matrix3.one, Matrix3.one⟩, ?_, rfl⟩,
    by decide⟩
  simp [Refinement.Frame.ofData?, transform?_square, hdestination]

/-- An estimation from the square passes an overflow of the solver on. -/
theorem fit_square_of_overflow :
    ((squareEstimator fun _ _ => .error .overflow).fit squareDraw square).answer =
      .error .overflow := by
  obtain ⟨k, hk, -, hsearch⟩ := exists_searchRecovers squareDraw noiseless_square
    (squareEstimator_searchesConsensus fun _ _ => .error .overflow) (by decide)
    (fun j hj => absurd hj (Nat.not_lt_zero j)) ⟨square, rfl, estimate?_square⟩
  have hrefused := (Refinement.refine_error_iff _ _ _ _).mpr (breaksOff_square hsearch.represents)
  exact fit_of_refused squareDraw _ square hsearch.found (hsearch.refine_eq.trans hrefused)

end Overflow

/-- The square is not recovered by an estimator whose solver refuses with an overflow, although it
is data without errors and its first sample is accepted. -/
theorem not_recovers_square_of_overflow :
    letI : Spectral ℝ := Spectral.chosen
    let e := squareEstimator fun _ _ => .error .overflow
    Noiseless Matrix3.one square ∧ e.SearchesConsensus squareSettings ∧
      Fitting.sampleAt squareDraw square Linear.minItems e.fitter.sampler 0 = .ok square ∧
      Linear.estimate? Linear.rankTolerance square ≠ none ∧
      ∀ iterations, ¬ Recovers Matrix3.one square squareSettings.threshold iterations
        (e.fit squareDraw square) := by
  intro e
  let spectral : Spectral ℝ := Spectral.chosen
  have hexact : Spectral.Exact := Spectral.chosen_exact
  refine ⟨noiseless_square, squareEstimator_searchesConsensus _, rfl, estimate?_square, ?_⟩
  intro iterations hrecovers
  have hok := hrecovers.answer_eq
  rw [fit_square_of_overflow] at hok
  cases hok

end Estimator

end Projectivity
