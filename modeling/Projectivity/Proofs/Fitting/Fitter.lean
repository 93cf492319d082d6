import Projectivity.Fitting.Fitter
import Projectivity.Proofs.Fitting.Lmeds
import Projectivity.Proofs.Fitting.Stopping

/-!
# What a fit leaves behind

Both methods of fitting end in the same three ways, with the same consequences for the
model and the report of the fitter.  A failure keeps the model and reports nothing, a
success replaces the model and reports the partition by it, and a fault arises exactly
where the search of the method breaks off.
-/

set_option autoImplicit false

namespace Projectivity.Fitter

open Fitting

variable {μ δ α σ : Type}

section WithModel

variable (m : μ) (f : Fitter μ δ α σ)

/-- A fitter with another model has this model. -/
@[simp] theorem model_withModel : (f.withModel m).model = m := by
  cases f <;> rfl

/-- A fitter with another model has the random state that it had. -/
@[simp] theorem sampler_withModel : (f.withModel m).sampler = f.sampler := by
  cases f <;> rfl

/-- A fitter with another model has the report that it had. -/
@[simp] theorem summary_withModel : (f.withModel m).summary = f.summary := by
  cases f <;> rfl

end WithModel

/-- What a fit that found no model leaves behind. -/
structure Fails (before after : Fitter μ δ α σ) : Prop where
  model_eq : after.model = before.model
  inliers_eq : after.inliers = []
  outliers_eq : after.outliers = []
  success_eq : after.summary.map Summary.success = some false

variable [Scalar α] [Summation α] (family : Family μ δ α) (draw : Sampler σ)
variable (f : Fitter μ δ α σ) (data : List δ)

/-- What a fit that found a model leaves behind: the report is the partition by that model, up to
the reported threshold. -/
structure Succeeds (after : Fitter μ δ α σ) : Prop where
  supported : ∃ threshold mask, after.summary.map Summary.threshold = some threshold ∧
    Supports family data threshold after.model mask ∧
    partition data mask = (after.inliers, after.outliers)
  success_eq : after.summary.map Summary.success = some true

variable {family data} in
omit [Summation α] in
/-- After a success the inliers and the outliers are the items that agree with the model, at the
reported threshold, and the others. -/
theorem Succeeds.exists_threshold {after : Fitter μ δ α σ} (h : Succeeds family data after) :
    ∃ threshold, after.summary.map Summary.threshold = some threshold ∧
      after.inliers = data.filter (agrees family threshold after.model) ∧
      after.outliers = data.filter (fun d => !agrees family threshold after.model d) ∧
      family.minItems ≤ after.inliers.length := by
  obtain ⟨threshold, mask, hthreshold, hsupports, hpartition⟩ := h.supported
  rw [hsupports.partition_eq, Prod.mk.injEq] at hpartition
  obtain ⟨hinliers, houtliers⟩ := hpartition
  have henough := hsupports.enough
  rw [hsupports.marks_eq, hinliers] at henough
  exact ⟨threshold, hthreshold, hinliers.symm, houtliers.symm, henough⟩

/-- What breaks the search of a fitter off: for consensus a sample that cannot be drawn or a rule
that gives no answer, and for the least median also a number that leaves the range of the
scalars. -/
def BreaksOff (cause : Fault) : Prop :=
  match f with
  | ransac settings state =>
    ∃ s, (Ransac.Search.start family state data).run family draw settings data
      settings.maxIterations = (some cause, s)
  | lmeds settings state => Lmeds.BreaksOff family draw settings state data cause

/-- A fit on too few items fails without a sample: its outcome is the same for every source of
samples, and the random state stays where it was. -/
theorem fit_few (hfew : data.length < family.minItems) :
    (f.fit family draw data).answer = .ok false ∧ f.Fails (f.fit family draw data).state ∧
      (f.fit family draw data).state.sampler = f.sampler ∧
      ∀ other, f.fit family other data = f.fit family draw data := by
  cases f with
  | ransac settings state =>
    simp only [fit, Ransac.fit, if_pos hfew]
    exact ⟨trivial, ⟨rfl, rfl, rfl, rfl⟩, rfl, fun _ => trivial⟩
  | lmeds settings state =>
    simp only [fit, Lmeds.fit, if_pos hfew]
    exact ⟨trivial, ⟨rfl, rfl, rfl, rfl⟩, rfl, fun _ => trivial⟩

/-- The three ends of a fit on enough items. -/
theorem fit_ends (hmany : ¬ data.length < family.minItems) :
    ((f.fit family draw data).answer = .ok false ∧ f.Fails (f.fit family draw data).state) ∨
      ((f.fit family draw data).answer = .ok true ∧
        Succeeds family data (f.fit family draw data).state) ∨
      ∃ cause, (f.fit family draw data).answer = .error cause ∧
        f.BreaksOff family draw data cause := by
  cases f with
  | ransac settings state =>
    simp only [fit]
    rcases Ransac.fit_cases family draw settings state data with
      ⟨hfew, _⟩ | ⟨cause, s, _, hrun, hfit⟩ | ⟨s, _, hrun, hfit⟩
    · exact absurd hfew hmany
    · rw [hfit]
      exact Or.inr (Or.inr ⟨cause, rfl, s, hrun⟩)
    rw [hfit]
    rcases Ransac.conclude_cases family settings state data s with
      ⟨inliers, hend⟩ | ⟨best, cause, _, hacc, _⟩ | ⟨best, hbest, henough, _, hend⟩
    · rw [hend]
      exact Or.inl ⟨rfl, rfl, rfl, rfl, rfl⟩
    -- The rule was set up when the search began, so it does not refuse to answer now.
    · have hsetup := Ransac.search_setup family draw settings state data hrun
      exact absurd hacc (Stopping.accepts_ne_error hsetup _ cause)
    · rw [hend]
      have hsound := Ransac.search_sound family draw settings state data hrun
      have hsupports := Ransac.settle_supports family settings data
        (hsound.candidate best hbest) henough
      exact Or.inr (Or.inl ⟨rfl, ⟨settings.threshold, _, rfl, hsupports, rfl⟩, rfl⟩)
  | lmeds settings state =>
    simp only [fit]
    rcases Lmeds.fit_cases family draw settings state data with ⟨hfew, _⟩ | ⟨_, hend⟩
    · exact absurd hfew hmany
    rcases hend with ⟨cause, next, hbreak, hfit⟩ | ⟨count, s, -, hfit⟩ |
      ⟨count, s, best, median, value, hends, hfit⟩
    · rw [hfit]
      exact Or.inr (Or.inr ⟨cause, rfl, hbreak⟩)
    · rw [hfit]
      exact Or.inl ⟨rfl, rfl, rfl, rfl, rfl⟩
    rw [hfit]
    rcases Lmeds.conclude_cases family settings { state with sampler := s.sampler } data count best
      median with ⟨cause, herror, _⟩ | ⟨other, hother, hend⟩
    · rw [hends.threshold_eq] at herror
      cases herror
    rw [hends.threshold_eq, Except.ok.injEq] at hother
    subst hother
    rcases hend with ⟨_, hend⟩ | ⟨henough, hend⟩
    · rw [hend]
      exact Or.inl ⟨rfl, rfl, rfl, rfl, rfl⟩
    · rw [hend]
      have hsupports := Lmeds.settle_supports family settings data (.ofScalar value) best henough
      exact Or.inr (Or.inl ⟨rfl, ⟨.ofScalar value, _, rfl, hsupports, rfl⟩, rfl⟩)

/-- A fit that answers with a failure leaves the model alone and reports nothing. -/
theorem fails_of_fit (hmany : ¬ data.length < family.minItems)
    (h : (f.fit family draw data).answer = .ok false) :
    f.Fails (f.fit family draw data).state := by
  rcases f.fit_ends family draw data hmany with ⟨_, hfails⟩ | ⟨htrue, _⟩ | ⟨cause, herror, _⟩
  · exact hfails
  · rw [h] at htrue
    cases htrue
  · rw [h] at herror
    cases herror

/-- A fit that answers with a success reports the partition by the model that it leaves. -/
theorem succeeds_of_fit (hmany : ¬ data.length < family.minItems)
    (h : (f.fit family draw data).answer = .ok true) :
    Succeeds family data (f.fit family draw data).state := by
  rcases f.fit_ends family draw data hmany with ⟨hfalse, _⟩ | ⟨_, hsuccess⟩ | ⟨cause, herror, _⟩
  · rw [h] at hfalse
    cases hfalse
  · exact hsuccess
  · rw [h] at herror
    cases herror

/-- A fit on enough items answers with a fault exactly if its search breaks off with it. -/
theorem fit_error_iff (hmany : ¬ data.length < family.minItems) (cause : Fault) :
    (f.fit family draw data).answer = .error cause ↔ f.BreaksOff family draw data cause := by
  constructor
  · intro h
    rcases f.fit_ends family draw data hmany with ⟨hfalse, _⟩ | ⟨htrue, _⟩ | ⟨other, herror, hbreak⟩
    · rw [h] at hfalse
      cases hfalse
    · rw [h] at htrue
      cases htrue
    · rw [h, Except.error.injEq] at herror
      rw [herror]
      exact hbreak
  · intro h
    cases f with
    | ransac settings state =>
      obtain ⟨s, hrun⟩ := h
      unfold Ransac.Search.start at hrun
      simp only [fit, Ransac.fit, if_neg hmany, hrun]
    | lmeds settings state =>
      exact Lmeds.fit_answer_of_breaksOff family draw settings state data hmany h

end Projectivity.Fitter
