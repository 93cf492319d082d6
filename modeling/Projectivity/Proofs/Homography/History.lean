import Projectivity.Configuration.Estimator
import Projectivity.Proofs.Fitting.History
import Projectivity.Proofs.Homography.Search

/-!
# Estimations do not depend on earlier ones

An estimator is reset at the begin of every estimation: its homography becomes the
identity, and nothing else that an earlier estimation left behind is read.  What is
left of the past is the random state.  Two estimators that were built with the same
arguments and have come to the same random state, whatever they were used for, give
the same results from there on.
-/

set_option autoImplicit false

namespace Projectivity.Estimator

variable {α σ : Type}

/-- What an estimator is built with, apart from its random state. -/
structure Arguments (α : Type) where
  fitter : Fitter.Arguments α
  direction : Transfer
  refinement : Refinement
  solver : Refinement.Solver α

/-- What an estimator was built with. -/
def arguments (e : Estimator α σ) : Arguments α :=
  ⟨e.fitter.arguments, e.direction, e.refinement, e.solver⟩

/-- Ends of estimations that cannot be told apart: the answer, the homography, the flag and the
random state are the same, and so is the report unless a fault has broken the estimations off. -/
structure EndAlike (a b : Fitting.Outcome (Estimator α σ) Notice) : Prop where
  answer_eq : a.answer = b.answer
  model_eq : a.state.model = b.state.model
  success_eq : a.state.success = b.state.success
  sampler_eq : a.state.fitter.sampler = b.state.fitter.sampler
  summary_eq : ∀ success, a.answer = .ok success →
    a.state.fitter.summary = b.state.fitter.summary

/-- Whether ends can be told apart depends on the states and the answers alone. -/
theorem EndAlike.congr {a b c d : Fitting.Outcome (Estimator α σ) Notice} (h : EndAlike a b)
    (hc : c.state = a.state ∧ c.answer = a.answer)
    (hd : d.state = b.state ∧ d.answer = b.answer) : EndAlike c d := by
  obtain ⟨hcstate, hcanswer⟩ := hc
  obtain ⟨hdstate, hdanswer⟩ := hd
  refine ⟨?_, ?_, ?_, ?_, ?_⟩
  · rw [hcanswer, hdanswer]
    exact h.answer_eq
  · rw [hcstate, hdstate]
    exact h.model_eq
  · rw [hcstate, hdstate]
    exact h.success_eq
  · rw [hcstate, hdstate]
    exact h.sampler_eq
  · rw [hcanswer, hcstate, hdstate]
    exact h.summary_eq

variable [Scalar α] [Summation α]

omit [Summation α] in
/-- Estimators that were built alike and have the same random state begin alike. -/
theorem fresh_alike {a b : Estimator α σ} (harguments : a.arguments = b.arguments)
    (hsampler : a.fitter.sampler = b.fitter.sampler) : a.fresh.Alike b.fresh := by
  simp only [arguments, Arguments.mk.injEq] at harguments
  unfold fresh
  refine ⟨?_, ?_, ?_⟩
  · rw [Fitter.arguments_withModel, Fitter.arguments_withModel, harguments.1]
  · rw [Fitter.model_withModel, Fitter.model_withModel]
  · rw [Fitter.sampler_withModel, Fitter.sampler_withModel, hsampler]

variable [Spectral α] (draw : Sampler σ)

/-- An estimator after a history of estimations. -/
def after (e : Estimator α σ) (history : List (List (Correspondence α))) : Estimator α σ :=
  history.foldl (fun e data => (e.fit draw data).state) e

omit [Summation α] in
/-- Estimations with a linear estimate end alike after searches that ended alike. -/
theorem endAlike_fallBack {a b : Estimator α σ} (data : List (Correspondence α))
    (hsuccess : a.success = b.success) (halike : a.fitter.Alike b.fitter)
    (hsummary : a.fitter.summary = b.fitter.summary) :
    EndAlike (a.fallBack data) (b.fallBack data) := by
  unfold fallBack Homography.estimate?
  cases Linear.estimate? (α := α) Linear.rankTolerance data with
  | none => exact ⟨rfl, halike.model_eq, hsuccess, halike.sampler_eq, fun _ _ => hsummary⟩
  | some H =>
    have hmodel := halike.withModel (Homography.mk H)
    refine ⟨rfl, hmodel.model_eq, hsuccess, hmodel.sampler_eq, fun _ _ => ?_⟩
    simp only [withModel, Option.map_some, Fitter.summary_withModel, hsummary]

omit [Summation α] in
/-- Refinements end alike after searches that ended alike. -/
theorem endAlike_refine {a b : Estimator α σ} (harguments : a.arguments = b.arguments)
    (hsuccess : a.success = b.success) (halike : a.fitter.Alike b.fitter)
    (hsummary : a.fitter.summary = b.fitter.summary) : EndAlike a.refine b.refine := by
  have hrefine : a.refinement.refine a.solver a.model.matrix a.fitter.inliers =
      b.refinement.refine b.solver b.model.matrix b.fitter.inliers := by
    simp only [arguments, Arguments.mk.injEq] at harguments
    obtain ⟨-, -, hrefinement, hsolver⟩ := harguments
    simp only [model, Fitter.inliers, hrefinement, hsolver, halike.model_eq, hsummary]
  unfold refine
  rw [hrefine]
  cases b.refinement.refine b.solver b.model.matrix b.fitter.inliers with
  | error cause =>
    exact ⟨rfl, halike.model_eq, hsuccess, halike.sampler_eq, fun _ _ => hsummary⟩
  | ok outcome =>
    simp only
    cases Homography.ofMatrix outcome.matrix with
    | error cause =>
      exact ⟨rfl, halike.model_eq, hsuccess, halike.sampler_eq, fun _ _ => hsummary⟩
    | ok H =>
      have hmodel := halike.withModel H
      refine ⟨rfl, hmodel.model_eq, rfl, hmodel.sampler_eq, fun _ _ => ?_⟩
      simp only [withModel, Fitter.summary_withModel, hsummary]

/-- The searches of estimators that were built alike and have the same random state end alike. -/
theorem search_endAlike {a b : Estimator α σ} (data : List (Correspondence α))
    (harguments : a.arguments = b.arguments)
    (hsampler : a.fitter.sampler = b.fitter.sampler) :
    Fitter.EndAlike (a.search draw data) (b.search draw data) := by
  have hfit := (fresh_alike harguments hsampler).fit (Homography.family a.direction) draw data
  have hdirection : a.direction = b.direction := congrArg Arguments.direction harguments
  unfold search
  rw [← hdirection]
  exact hfit

/-- Estimations from the same data by estimators that were built alike and have the same random
state end alike. -/
theorem fit_endAlike {a b : Estimator α σ} (data : List (Correspondence α))
    (harguments : a.arguments = b.arguments)
    (hsampler : a.fitter.sampler = b.fitter.sampler) :
    EndAlike (a.fit draw data) (b.fit draw data) := by
  have hsearch := search_endAlike draw data harguments hsampler
  have halike := hsearch.alike
  have hsearched : (a.searched draw data).arguments = (b.searched draw data).arguments := by
    simp only [arguments, Arguments.mk.injEq] at harguments ⊢
    exact ⟨halike.arguments_eq, harguments.2⟩
  by_cases hfew : data.length < Linear.minItems
  · have hsummary := hsearch.summary_eq false (a.search_answer_of_few draw data hfew)
    have hend : EndAlike ⟨a.searched draw data, .ok false, []⟩
        ⟨b.searched draw data, .ok false, []⟩ :=
      ⟨rfl, halike.model_eq, rfl, halike.sampler_eq, fun _ _ => hsummary⟩
    exact hend.congr (a.fit_of_few draw data hfew) (b.fit_of_few draw data hfew)
  · have henough := Nat.le_of_not_lt hfew
    have hnext : EndAlike (a.next draw data) (b.next draw data) := by
      unfold next
      rw [← hsearch.answer_eq]
      cases hanswer : (a.search draw data).answer with
      | error cause =>
        refine ⟨rfl, halike.model_eq, rfl, halike.sampler_eq, ?_⟩
        intro success hok
        cases hok
      | ok found =>
        have hsummary := hsearch.summary_eq found hanswer
        cases found with
        | false => exact endAlike_fallBack data rfl halike hsummary
        | true => exact endAlike_refine hsearched rfl halike hsummary
    exact hnext.congr (a.fit_of_enough draw data henough) (b.fit_of_enough draw data henough)

/-- An estimation never changes what the estimator was built with. -/
theorem arguments_fit (e : Estimator α σ) (data : List (Correspondence α)) :
    (e.fit draw data).state.arguments = e.arguments := by
  have hsearched : (e.searched draw data).arguments = e.arguments := by
    have hkeep := e.fresh.arguments_fit (Homography.family e.direction) draw data
    unfold fresh at hkeep
    rw [Fitter.arguments_withModel] at hkeep
    unfold arguments
    exact congrArg (fun f => Arguments.mk f e.direction e.refinement e.solver) hkeep
  have hmodel : ∀ (H : Homography α) (a : Estimator α σ),
      (a.withModel H).arguments = a.arguments := by
    intro H a
    simp only [arguments, withModel, Fitter.arguments_withModel]
  by_cases hfew : data.length < Linear.minItems
  · rw [(e.fit_of_few draw data hfew).1]
    exact hsearched
  rw [(e.fit_of_enough draw data (Nat.le_of_not_lt hfew)).1]
  unfold next
  split
  · exact hsearched
  · unfold fallBack
    split
    · exact (hmodel _ _).trans hsearched
    · exact hsearched
  · unfold refine
    split
    · exact hsearched
    · simp only
      split
      · exact hsearched
      · exact (hmodel _ _).trans hsearched

/-- A history of estimations never changes what the estimator was built with. -/
theorem arguments_after (e : Estimator α σ) (history : List (List (Correspondence α))) :
    (e.after draw history).arguments = e.arguments := by
  induction history generalizing e with
  | nil => rfl
  | cons data rest ih => exact (ih _).trans (arguments_fit draw e data)

/-- Estimators that were built with the same arguments and have been used for any two histories of
estimations, after which their random states are the same, give the same results for the same
data. -/
theorem fit_endAlike_after {a b : Estimator α σ} (harguments : a.arguments = b.arguments)
    (first second : List (List (Correspondence α)))
    (hsampler : (a.after draw first).fitter.sampler = (b.after draw second).fitter.sampler)
    (data : List (Correspondence α)) :
    EndAlike ((a.after draw first).fit draw data) ((b.after draw second).fit draw data) := by
  have hafter : (a.after draw first).arguments = (b.after draw second).arguments := by
    rw [arguments_after, arguments_after, harguments]
  exact fit_endAlike draw data hafter hsampler

/-- An estimator that has searched among coincident correspondences in vain and was given too little
data after that, and one that was never used.  The draws begin with the first item every time. -/
theorem fit_endAlike_after_failed_search :
    let draw : Sampler Unit := fun _ available size =>
      (.ok ((List.range size).map fun i => i % available), ())
    let settings : Fitting.Ransac.Settings Float := ⟨.finite 4, 2, 100, true⟩
    let unused : Estimator Float Unit :=
      .ofFitter (.newRansac settings Fitting.defaultStopping Homography.identity ()) .forward {}
    let pair (x y : Float) : Correspondence Float := ⟨⟨x, y⟩, ⟨x + 10, y + 5⟩⟩
    let coincident := List.replicate 4 (pair 0 0)
    let data := [pair 0 0, pair 100 0, pair 100 100, pair 0 100]
    let searched := unused.fit draw coincident
    searched.answer = .ok false ∧
      searched.state.fitter.summary.map (fun s => s.iterations) = some 2 ∧
      EndAlike ((unused.after draw [coincident, [pair 0 0]]).fit draw data)
        ((unused.after draw []).fit draw data) := by
  intro draw settings unused pair coincident data searched
  have hfailed : searched.answer.toOption = some false := by decide +kernel
  have hsearched : searched.state.fitter.summary.map (fun s => s.iterations) = some 2 := by
    decide +kernel
  have harguments : unused.arguments = unused.arguments := rfl
  have hsampler : (unused.after draw [coincident, [pair 0 0]]).fitter.sampler =
      (unused.after draw []).fitter.sampler := rfl
  exact ⟨Result.toOption_eq_some.mp hfailed, hsearched,
    fit_endAlike_after draw harguments [coincident, [pair 0 0]] [] hsampler data⟩

end Projectivity.Estimator
