import Projectivity.Proofs.Fitting.Fitter

/-!
# What a fit forgets

A fitter keeps a report, and a stopping rule keeps counts, from one fit to the next.  A
fit reads neither of them.  Fitters that were built alike, with the same model and the
same random state, are therefore fitted alike, and stay so.
-/

set_option autoImplicit false

namespace Projectivity.Fitter

open Fitting

variable {μ δ α σ : Type}

/-- What a fitter is built with, apart from its model and its random state. -/
inductive Arguments (α : Type) where
  | ransac (settings : Ransac.Settings α) (rule : Stopping.Rule α)
  | lmeds (settings : Lmeds.Settings α)

/-- What a fitter was built with. -/
def arguments : Fitter μ δ α σ → Arguments α
  | ransac settings state => .ransac settings state.stopping.rule
  | lmeds settings _ => .lmeds settings

/-- Fitters that differ in what they remember of earlier fits at most. -/
structure Alike (f g : Fitter μ δ α σ) : Prop where
  arguments_eq : f.arguments = g.arguments
  model_eq : f.model = g.model
  sampler_eq : f.sampler = g.sampler

/-- Ends of fits that cannot be told apart: the fitters are alike, the answers are the same, and so
are the reports unless a fault has kept the fits from reporting. -/
structure EndAlike (a b : Outcome (Fitter μ δ α σ) Notice) : Prop where
  alike : a.state.Alike b.state
  answer_eq : a.answer = b.answer
  summary_eq : ∀ success, a.answer = .ok success → a.state.summary = b.state.summary

/-- A fitter with another model has the arguments that it had. -/
@[simp] theorem arguments_withModel (m : μ) (f : Fitter μ δ α σ) :
    (f.withModel m).arguments = f.arguments := by
  cases f <;> rfl

/-- Fitters that are alike are so with the same other model. -/
theorem Alike.withModel {f g : Fitter μ δ α σ} (h : f.Alike g) (m : μ) :
    (f.withModel m).Alike (g.withModel m) := by
  refine ⟨?_, ?_, ?_⟩
  · rw [arguments_withModel, arguments_withModel, h.arguments_eq]
  · rw [model_withModel, model_withModel]
  · rw [sampler_withModel, sampler_withModel, h.sampler_eq]

variable [Scalar α] [Summation α] (family : Family μ δ α) (draw : Sampler σ) (data : List δ)

/-- A search for consensus ends alike for fitters that differ in their memory only.  The rule is
set up from scratch for every search, and the best candidate of a search is its own. -/
theorem endAlike_ransac (settings : Ransac.Settings α)
    {s t : Ransac.State μ δ α (Stopping α) σ} (hmodel : s.model = t.model)
    (hsampler : s.sampler = t.sampler) (hrule : s.stopping.rule = t.stopping.rule) :
    EndAlike ((ransac settings s).fit family draw data)
      ((ransac settings t).fit family draw data) := by
  by_cases hfew : data.length < family.minItems
  · simp only [fit, Ransac.fit, if_pos hfew]
    refine ⟨⟨?_, hmodel, hsampler⟩, rfl, fun _ _ => rfl⟩
    simp only [arguments, hrule]
  -- Both searches begin in one and the same state, so that they are one search.
  have hstart : Ransac.Search.start family s data = Ransac.Search.start family t data := by
    have hpolicy := Stopping.start_congr hrule data.length family.minItems
    unfold Ransac.Search.start
    rw [hmodel, hsampler]
    exact congrArg (fun policy => Ransac.Search.mk t.sampler t.model none policy 0) hpolicy
  rcases hrun : (Ransac.Search.start family t data).run family draw settings data
    settings.maxIterations with ⟨fault, found⟩
  have hsrun := hstart ▸ hrun
  unfold Ransac.Search.start at hrun hsrun
  simp only [fit, Ransac.fit, if_neg hfew, hrun, hsrun]
  cases fault with
  | some cause =>
    refine ⟨⟨rfl, hmodel, rfl⟩, rfl, ?_⟩
    intro success hanswer
    cases hanswer
  | none =>
    simp only [Ransac.conclude]
    cases hbest : found.best with
    | none => exact ⟨⟨rfl, hmodel, rfl⟩, rfl, fun _ _ => rfl⟩
    | some best =>
      by_cases hlow : best.inliers < family.minItems
      · simp only [if_pos hlow]
        exact ⟨⟨rfl, hmodel, rfl⟩, rfl, fun _ _ => rfl⟩
      simp only [if_neg hlow]
      cases hacc : Stopping.Policy.accepts found.stopping
          (marks (Ransac.settle family settings data best).2) with
      | error cause =>
        refine ⟨⟨rfl, hmodel, rfl⟩, rfl, ?_⟩
        intro success hanswer
        cases hanswer
      | ok accepted =>
        cases accepted with
        | false => exact ⟨⟨rfl, hmodel, rfl⟩, rfl, fun _ _ => rfl⟩
        | true => exact ⟨⟨rfl, rfl, rfl⟩, rfl, fun _ _ => rfl⟩

omit [Summation α] in
/-- The end of a search with a finite median does not read the report of the fitter. -/
theorem endAlike_conclude (settings : Lmeds.Settings α) {s t : Lmeds.State μ δ α σ} (count : Nat)
    (best : Lmeds.Candidate μ α) (median : α) (hmodel : s.model = t.model)
    (hsampler : s.sampler = t.sampler) :
    let a := Lmeds.conclude family settings s data count best median
    let b := Lmeds.conclude family settings t data count best median
    EndAlike ⟨lmeds settings a.state, a.answer, a.notices⟩
      ⟨lmeds settings b.state, b.answer, b.notices⟩ := by
  simp only [Lmeds.conclude]
  cases hvalue : Lmeds.robustThreshold settings median data.length family.minItems with
  | error cause =>
    refine ⟨⟨rfl, hmodel, hsampler⟩, rfl, ?_⟩
    intro success hanswer
    cases hanswer
  | ok value =>
    simp only
    by_cases hlow : marks (classify family best.model data (.ofScalar value)) < family.minItems
    · rw [if_pos hlow, if_pos hlow]
      exact ⟨⟨rfl, hmodel, hsampler⟩, rfl, fun _ _ => rfl⟩
    · rw [if_neg hlow, if_neg hlow]
      exact ⟨⟨rfl, rfl, hsampler⟩, rfl, fun _ _ => rfl⟩

/-- A search for the least median ends alike for fitters that differ in their report only. -/
theorem endAlike_lmeds (settings : Lmeds.Settings α) {s t : Lmeds.State μ δ α σ}
    (hmodel : s.model = t.model) (hsampler : s.sampler = t.sampler) :
    EndAlike ((lmeds settings s).fit family draw data)
      ((lmeds settings t).fit family draw data) := by
  by_cases hfew : data.length < family.minItems
  · simp only [fit, Lmeds.fit, if_pos hfew]
    exact ⟨⟨rfl, hmodel, hsampler⟩, rfl, fun _ _ => rfl⟩
  simp only [fit, Lmeds.fit, if_neg hfew, hmodel, hsampler]
  cases hcount : Lmeds.iterations settings family.minItems with
  | error cause =>
    refine ⟨⟨rfl, hmodel, hsampler⟩, rfl, ?_⟩
    intro success hanswer
    cases hanswer
  | ok count =>
    simp only
    rcases (Lmeds.Search.mk t.sampler t.model none).run family draw settings data count with
      ⟨fault, found⟩
    cases fault with
    | some cause =>
      refine ⟨⟨rfl, rfl, rfl⟩, rfl, ?_⟩
      intro success hanswer
      cases hanswer
    | none =>
      simp only
      cases hbest : found.best with
      | none => exact ⟨⟨rfl, rfl, rfl⟩, rfl, fun _ _ => rfl⟩
      | some best =>
        simp only
        cases hmedian : best.median with
        | infinite => exact ⟨⟨rfl, rfl, rfl⟩, rfl, fun _ _ => rfl⟩
        | finite median =>
          simp only
          by_cases hfinite : Scalar.isFinite median = true
          · rw [if_pos hfinite, if_pos hfinite]
            exact endAlike_conclude family data settings count best median rfl rfl
          · rw [if_neg hfinite, if_neg hfinite]
            exact ⟨⟨rfl, rfl, rfl⟩, rfl, fun _ _ => rfl⟩

/-- Fits of the same items by fitters that are alike end alike. -/
theorem Alike.fit {f g : Fitter μ δ α σ} (h : f.Alike g) :
    EndAlike (f.fit family draw data) (g.fit family draw data) := by
  obtain ⟨harguments, hmodel, hsampler⟩ := h
  cases f with
  | ransac settings s =>
    cases g with
    | ransac other t =>
      simp only [arguments, Arguments.ransac.injEq] at harguments
      obtain ⟨rfl, hrule⟩ := harguments
      exact endAlike_ransac family draw data settings hmodel hsampler hrule
    | lmeds other t => cases harguments
  | lmeds settings s =>
    cases g with
    | ransac other t => cases harguments
    | lmeds other t =>
      simp only [arguments, Arguments.lmeds.injEq] at harguments
      subst harguments
      exact endAlike_lmeds family draw data settings hmodel hsampler

/-- A fit never changes what the fitter was built with. -/
theorem arguments_fit (f : Fitter μ δ α σ) :
    (f.fit family draw data).state.arguments = f.arguments := by
  cases f with
  | lmeds settings state => rfl
  | ransac settings state =>
    have hkeep : (Ransac.fit family draw settings state data).state.stopping.rule =
        state.stopping.rule := by
      rcases Ransac.fit_cases family draw settings state data with
        ⟨_, hfit⟩ | ⟨cause, s, _, hrun, hfit⟩ | ⟨s, _, hrun, hfit⟩
      · rw [hfit]
      · rw [hfit]
        exact Ransac.search_rule family draw settings state data hrun
      · have hrule := Ransac.search_rule family draw settings state data hrun
        rw [hfit]
        rcases Ransac.conclude_cases family settings state data s with
          ⟨inliers, hend⟩ | ⟨best, cause, _, _, hend⟩ | ⟨best, _, _, _, hend⟩
        all_goals
          rw [hend]
          exact hrule
    simp only [fit, arguments, hkeep]

end Projectivity.Fitter
