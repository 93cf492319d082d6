import Projectivity.Homography.Estimator
import Projectivity.Proofs.Fitting.Fitter

/-!
# The steps of an estimation

An estimation resets its fitter, searches, and goes on with what the search has found.
The steps have names here, so that what is known about the fitter and about the
refinement can be put together.
-/

set_option autoImplicit false

namespace Projectivity.Estimator

variable {α σ : Type} [Scalar α] [Summation α] [Spectral α]
variable (draw : Sampler σ) (e : Estimator α σ) (data : List (Correspondence α))

/-- The fitter of an estimation at its begin, from which the last homography is gone. -/
def fresh : Fitter (Homography α) (Correspondence α) α σ := e.fitter.withModel Homography.identity

/-- The fit with which an estimation begins. -/
def search : Fitting.Outcome (Fitter (Homography α) (Correspondence α) α σ) Fitting.Notice :=
  e.fresh.fit (Homography.family e.direction) draw data

/-- The estimator after the fit with which an estimation begins. -/
def searched : Estimator α σ := { e with fitter := (e.search draw data).state, success := false }

/-- How an estimation from enough data goes on after its search. -/
def next : Fitting.Outcome (Estimator α σ) Notice :=
  match (e.search draw data).answer with
  | .error cause => ⟨e.searched draw data, .error cause, []⟩
  | .ok false => (e.searched draw data).fallBack data
  | .ok true => (e.searched draw data).refine

/-- An estimation from enough data leaves behind what follows its search. -/
theorem fit_of_enough (h : Linear.minItems ≤ data.length) :
    (e.fit draw data).state = (e.next draw data).state ∧
      (e.fit draw data).answer = (e.next draw data).answer := by
  have hmany : ¬ data.length < (Homography.family (α := α) e.direction).minItems :=
    Nat.not_lt.mpr h
  unfold fit
  simp only
  rw [if_neg hmany]
  exact ⟨rfl, rfl⟩

/-- A search on too few correspondences finds nothing. -/
theorem search_answer_of_few (h : data.length < Linear.minItems) :
    (e.search draw data).answer = .ok false :=
  (e.fresh.fit_few (Homography.family e.direction) draw data h).1

/-- A search that finds something has enough correspondences. -/
theorem enough_of_found (hfound : (e.search draw data).answer = .ok true) :
    Linear.minItems ≤ data.length := by
  refine Nat.le_of_not_lt fun hfew => ?_
  have hanswer := e.search_answer_of_few draw data hfew
  rw [hfound] at hanswer
  cases hanswer

/-- A search that finds a homography reports the partition by it. -/
theorem succeeds_of_found (hfound : (e.search draw data).answer = .ok true) :
    Fitter.Succeeds (Homography.family e.direction) data (e.search draw data).state := by
  have hmany : ¬ data.length < (Homography.family (α := α) e.direction).minItems :=
    Nat.not_lt.mpr (e.enough_of_found draw data hfound)
  exact e.fresh.succeeds_of_fit (Homography.family e.direction) draw data hmany hfound

omit [Summation α] in
/-- A linear estimate takes the place of the homography if there is one, and nothing else
changes. -/
theorem fallBack_spec :
    (e.fallBack data).answer = .ok false ∧ (e.fallBack data).state.success = e.success ∧
      (e.fallBack data).state.fitter.summary = e.fitter.summary ∧
      (e.fallBack data).state.model =
        match Linear.estimate? Linear.rankTolerance data with
        | some H => ⟨H⟩
        | none => e.model := by
  unfold fallBack Homography.estimate?
  cases Linear.estimate? (α := α) Linear.rankTolerance data with
  | none => exact ⟨rfl, rfl, rfl, rfl⟩
  | some H =>
    exact ⟨rfl, rfl, Fitter.summary_withModel _ _, Fitter.model_withModel (Homography.mk H) _⟩

/-- An estimation from too little data stops after its search. -/
theorem fit_of_few (h : data.length < Linear.minItems) :
    (e.fit draw data).state = e.searched draw data ∧ (e.fit draw data).answer = .ok false := by
  have hfew : data.length < (Homography.family (α := α) e.direction).minItems := h
  have hanswer := e.search_answer_of_few draw data h
  unfold search fresh at hanswer
  unfold fit
  simp only
  rw [if_pos hfew]
  exact ⟨rfl, by simp only [withModel, hanswer]; rfl⟩

omit [Summation α] in
/-- A refinement replaces the homography and leaves the report of the fitter alone. -/
theorem summary_refine : e.refine.state.fitter.summary = e.fitter.summary := by
  unfold refine
  split
  · rfl
  · simp only
    split
    · rfl
    · exact Fitter.summary_withModel _ _

/-- The report that an estimation leaves behind is that of its search. -/
theorem summary_fit :
    (e.fit draw data).state.fitter.summary = (e.search draw data).state.summary := by
  by_cases hfew : data.length < Linear.minItems
  · rw [(e.fit_of_few draw data hfew).1]
    rfl
  · rw [(e.fit_of_enough draw data (Nat.le_of_not_lt hfew)).1]
    unfold next
    split
    · rfl
    · exact ((e.searched draw data).fallBack_spec data).2.2.1
    · exact (e.searched draw data).summary_refine

/-- The inliers of a fit are those of its search. -/
theorem inliers_fit :
    (e.fit draw data).state.fitter.inliers = (e.search draw data).state.inliers := by
  unfold Fitter.inliers
  rw [summary_fit]

/-- The outliers of a fit are those of its search. -/
theorem outliers_fit :
    (e.fit draw data).state.fitter.outliers = (e.search draw data).state.outliers := by
  unfold Fitter.outliers
  rw [summary_fit]

/-- An estimation whose fitter finds a homography leaves behind the refined one, if that is
finite. -/
theorem fit_of_refined (hfound : (e.search draw data).answer = .ok true)
    {outcome : Refinement.Outcome α}
    (hrefine : e.refinement.refine e.solver (e.search draw data).state.model.matrix
      (e.search draw data).state.inliers = .ok outcome)
    (hfinite : outcome.matrix.isFinite = true) :
    (e.fit draw data).state =
        { (e.searched draw data).withModel ⟨outcome.matrix⟩ with success := true } ∧
      (e.fit draw data).answer = .ok true := by
  obtain ⟨hstate, hanswer⟩ := e.fit_of_enough draw data (e.enough_of_found draw data hfound)
  have hsearched : (e.searched draw data).refinement.refine (e.searched draw data).solver
      (e.searched draw data).model.matrix (e.searched draw data).fitter.inliers =
        .ok outcome := hrefine
  have hnext : e.next draw data =
      ⟨{ (e.searched draw data).withModel ⟨outcome.matrix⟩ with success := true }, .ok true,
        outcome.notices.map (.refinement e.refinement)⟩ := by
    simp only [next, hfound, refine, hsearched, Homography.ofMatrix, if_pos hfinite]
    rfl
  rw [hstate, hanswer, hnext]
  exact ⟨rfl, rfl⟩

/-- A fit whose refinement is refused is refused for the same cause. -/
theorem fit_of_refused (hfound : (e.search draw data).answer = .ok true) {cause : Fault}
    (hrefine : e.refinement.refine e.solver (e.search draw data).state.model.matrix
      (e.search draw data).state.inliers = .error cause) :
    (e.fit draw data).answer = .error cause := by
  obtain ⟨-, hanswer⟩ := e.fit_of_enough draw data (e.enough_of_found draw data hfound)
  have hsearched : (e.searched draw data).refinement.refine (e.searched draw data).solver
      (e.searched draw data).model.matrix (e.searched draw data).fitter.inliers =
        .error cause := hrefine
  simp only [hanswer, next, hfound, refine, hsearched]

end Projectivity.Estimator
