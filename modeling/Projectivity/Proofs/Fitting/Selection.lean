import Mathlib.Data.List.Induction
import Projectivity.Proofs.Fitting.Trace
import Projectivity.Proofs.Scalar.Double

/-!
# The model that a search selects

A search for consensus keeps the best candidate so far and never looks back.  What it
ends with is the best of the models of all its iterations: the one with the largest
consensus, the one with the smaller error among those, and the earliest among those
that tie.  Nothing else is ever a candidate.
-/

set_option autoImplicit false

namespace Projectivity.Fitting.Ransac

variable {μ δ α τ σ : Type} [Scalar α] [Summation α]

section Optimum

variable (family : Family μ δ α) (data : List δ) (threshold : Extended α)

/-- The items that agree with a model. -/
def consensus (m : μ) : List δ := data.filter (agrees family threshold m)

/-- The sum of the residuals of the items that agree with a model. -/
def consensusError (m : μ) : Extended α :=
  Summation.total ((consensus family data threshold m).map (family.residual m))

/-- A model has a larger consensus than another one, or one as large with a smaller error. -/
def Better (m other : μ) : Prop :=
  (consensus family data threshold other).length < (consensus family data threshold m).length ∨
    (consensus family data threshold m).length = (consensus family data threshold other).length ∧
      (consensusError family data threshold m).lt
        (consensusError family data threshold other) = true

/-- A model has a larger consensus than another one, or one as large without a larger error. -/
def AtLeast (m other : μ) : Prop :=
  (consensus family data threshold other).length < (consensus family data threshold m).length ∨
    (consensus family data threshold m).length = (consensus family data threshold other).length ∧
      (consensusError family data threshold m).le
        (consensusError family data threshold other) = true

/-- The best model that iterations found, and the earliest of the best ones. -/
structure Optimum (models : List (Option μ)) (m : μ) : Prop where
  best : ∀ other, some other ∈ models → AtLeast family data threshold m other
  earliest : ∃ i : Nat, models[i]? = some (some m) ∧ ∀ j < i, ∀ other, models[j]? = some (some other) →
    Better family data threshold m other

/-- What a search keeps of the models that its iterations found: the candidate of the optimum. -/
structure Selected (models : List (Option μ)) (best : Option (Candidate μ α)) : Prop where
  none_iff : best = none ↔ ∀ m, some m ∉ models
  optimum : ∀ a, best = some a →
    a = Candidate.of family data threshold a.model ∧ Optimum family data threshold models a.model

variable {family data threshold}

/-- The inliers of a candidate are counted by its consensus. -/
theorem Candidate.of_inliers (m : μ) : (Candidate.of family data threshold m).inliers =
    (consensus family data threshold m).length := by
  have hsound := Candidate.of_sound family data threshold m
  rw [hsound.inliers_eq, hsound.mask_eq, classify_eq_map, marks_map]
  rfl

/-- The error of a candidate is that of its consensus, and infinite without one. -/
theorem Candidate.of_error (m : μ) : (Candidate.of family data threshold m).error =
    if (consensus family data threshold m).length = 0 then .infinite
    else consensusError family data threshold m := by
  have hcount : (Candidate.of family data threshold m).inliers =
      (consensus family data threshold m).length := Candidate.of_inliers m
  unfold Candidate.of at hcount ⊢
  simp only at hcount ⊢
  rw [hcount, List.filter_map]
  rfl

variable {models : List (Option μ)} {best : Option (Candidate μ α)}

/-- Without iterations nothing is kept. -/
theorem Selected.start : Selected family data threshold ([] : List (Option μ)) none := by
  refine ⟨iff_of_true rfl fun m => List.not_mem_nil, ?_⟩
  intro a ha
  cases ha

/-- An optimum is still the best if a further model is not better. -/
theorem Optimum.append {m : μ} (h : Optimum family data threshold models m) (outcome : Option μ)
    (hnew : ∀ other, outcome = some other → AtLeast family data threshold m other) :
    Optimum family data threshold (models ++ [outcome]) m := by
  obtain ⟨i, hfound, hearlier⟩ := h.earliest
  obtain ⟨hi, -⟩ := List.getElem?_eq_some_iff.mp hfound
  refine ⟨?_, i, ?_, ?_⟩
  · intro other hother
    rcases List.mem_append.mp hother with hold | hlast
    · exact h.best other hold
    · exact hnew other (List.mem_singleton.mp hlast).symm
  · rw [List.getElem?_append_left hi]
    exact hfound
  · intro j hj other hother
    rw [List.getElem?_append_left (Nat.lt_trans hj hi)] at hother
    exact hearlier j hj other hother

/-- An iteration that finds nothing does not change what is selected. -/
theorem Selected.append_none (h : Selected family data threshold models best) :
    Selected family data threshold (models ++ [none]) best := by
  refine ⟨?_, ?_⟩
  · rw [h.none_iff]
    simp only [List.mem_append, List.mem_singleton, reduceCtorEq, or_false]
  · intro a ha
    obtain ⟨hof, hoptimum⟩ := h.optimum a ha
    exact ⟨hof, hoptimum.append none fun other hother => by cases hother⟩

variable [Scalar.Ordered α] [Summation.Nonneg α]

section Comparison

variable {m other third : μ}
  (hresidual : ∀ m, ∀ d ∈ data, Extended.zero.le (family.residual m d) = true)

include hresidual in
/-- The error of a consensus can be compared. -/
theorem isOrdered_consensusError (m : μ) :
    (consensusError family data threshold m).isOrdered = true := by
  have hnonneg : Extended.zero.le (consensusError family data threshold m) = true := by
    apply Summation.Nonneg.zero_le_total
    intro r hr
    obtain ⟨d, hd, rfl⟩ := List.mem_map.mp hr
    exact hresidual m d (List.mem_filter.mp hd).1
  exact (Extended.isOrdered_of_le hnonneg).2

include hresidual in
/-- A model is at least as good as itself. -/
theorem AtLeast.refl (m : μ) : AtLeast family data threshold m m := by
  have hordered : (consensusError family data threshold m).isOrdered = true :=
    isOrdered_consensusError hresidual m
  rcases Extended.le_total hordered hordered with hle | hle
  · exact Or.inr ⟨rfl, hle⟩
  · exact Or.inr ⟨rfl, hle⟩

include hresidual in
/-- A better model is at least as good. -/
theorem Better.atLeast (h : Better family data threshold m other) :
    AtLeast family data threshold m other := by
  rcases h with hmore | ⟨hsame, hless⟩
  · exact Or.inl hmore
  · exact Or.inr ⟨hsame, Extended.le_of_lt (isOrdered_consensusError hresidual m)
      (isOrdered_consensusError hresidual other) hless⟩

include hresidual in
/-- A model than which another one is not better is at least as good. -/
theorem atLeast_of_not_better (h : ¬ Better family data threshold other m) :
    AtLeast family data threshold m other := by
  unfold Better at h
  rw [not_or, not_and] at h
  obtain ⟨hcount, herror⟩ := h
  rcases Nat.lt_or_eq_of_le (Nat.le_of_not_lt hcount) with hmore | hsame
  · exact Or.inl hmore
  · exact Or.inr ⟨hsame.symm, Extended.le_of_not_lt (isOrdered_consensusError hresidual other)
      (isOrdered_consensusError hresidual m) (herror hsame)⟩

include hresidual in
/-- A model that is better than one is better than all that are not as good. -/
theorem Better.trans_atLeast (h : Better family data threshold m other)
    (hother : AtLeast family data threshold other third) :
    Better family data threshold m third := by
  rcases h with hmore | ⟨hsame, hless⟩
  · rcases hother with hmore' | ⟨hsame', -⟩
    · exact Or.inl (Nat.lt_trans hmore' hmore)
    · exact Or.inl (hsame' ▸ hmore)
  · rcases hother with hmore' | ⟨hsame', hle⟩
    · exact Or.inl (hsame ▸ hmore')
    · exact Or.inr ⟨hsame.trans hsame', Extended.lt_of_lt_of_le
        (isOrdered_consensusError hresidual m) hless hle⟩

/-- Candidates are compared as their models are.  Candidates without inliers tie. -/
theorem Candidate.beats_iff : (Candidate.of family data threshold m).beats
    (Candidate.of family data threshold other) = true ↔ Better family data threshold m other := by
  unfold Candidate.beats Better
  simp only [Bool.or_eq_true, decide_eq_true_eq, Bool.and_eq_true, beq_iff_eq,
    Candidate.of_inliers, Candidate.of_error]
  refine or_congr_right (and_congr_right fun hsame => ?_)
  rw [hsame]
  by_cases hnone : (consensus family data threshold other).length = 0
  · have hm := List.length_eq_zero_iff.mp (hsame.trans hnone)
    have hother := List.length_eq_zero_iff.mp hnone
    -- The sum over no items is the same one on both sides.
    have hempty : (Summation.total ([] : List (Extended α))).isOrdered = true :=
      (Extended.isOrdered_of_le
        (Summation.Nonneg.zero_le_total fun x hx => absurd hx List.not_mem_nil)).2
    have htie : ¬ (Summation.total ([] : List (Extended α))).lt (Summation.total []) = true :=
      fun hless => (Extended.lt_iff_not_le hempty hempty).mp hless
        ((Extended.le_total hempty hempty).elim id id)
    unfold consensusError
    rw [if_pos hnone, if_pos hnone, hm, hother]
    exact iff_of_false Bool.false_ne_true htie
  · rw [if_neg hnone, if_neg hnone]

end Comparison

section Keeping

variable (hresidual : ∀ m, ∀ d ∈ data, Extended.zero.le (family.residual m d) = true)

include hresidual in
/-- A model that is better than all models before it is the optimum. -/
theorem Optimum.of_better {m : μ}
    (h : ∀ other, some other ∈ models → Better family data threshold m other) :
    Optimum family data threshold (models ++ [some m]) m := by
  refine ⟨?_, models.length, List.getElem?_concat_length, ?_⟩
  · intro other hother
    rcases List.mem_append.mp hother with hold | hlast
    · exact (h other hold).atLeast hresidual
    · cases List.mem_singleton.mp hlast
      exact AtLeast.refl hresidual m
  · intro j hj other hother
    rw [List.getElem?_append_left hj] at hother
    exact h other (List.mem_of_getElem? hother)

include hresidual in
/-- The better of what was selected and a further model is selected. -/
theorem Selected.append_some (h : Selected family data threshold models best) (m : μ) :
    Selected family data threshold (models ++ [some m])
      (some (Candidate.better best (Candidate.of family data threshold m))) := by
  have hmem : some m ∈ models ++ [some m] := List.mem_append_right _ (List.mem_singleton_self _)
  refine ⟨iff_of_false (Option.some_ne_none _) fun hnone => hnone m hmem, ?_⟩
  rintro a ha
  rw [Option.some.injEq] at ha
  subst ha
  cases best with
  | none =>
    have hfirst : ∀ other, some other ∈ models → Better family data threshold m other := by
      intro other hother
      exact absurd hother (h.none_iff.mp rfl other)
    exact ⟨rfl, Optimum.of_better hresidual hfirst⟩
  | some b =>
    obtain ⟨hof, hoptimum⟩ := h.optimum b rfl
    unfold Candidate.better
    simp only
    split
    · rename_i hbeats
      rw [hof, Candidate.beats_iff] at hbeats
      have hnew : ∀ other, some other ∈ models → Better family data threshold m other := by
        intro other hother
        exact hbeats.trans_atLeast hresidual (hoptimum.best other hother)
      exact ⟨rfl, Optimum.of_better hresidual hnew⟩
    · rename_i hbeaten
      rw [hof, Candidate.beats_iff] at hbeaten
      refine ⟨hof, hoptimum.append (some m) ?_⟩
      intro other hother
      rw [Option.some.injEq] at hother
      subst hother
      exact atLeast_of_not_better hresidual hbeaten

end Keeping

end Optimum

section Search

variable [Stopping.Policy τ]
variable (family : Family μ δ α) (draw : Sampler σ) (settings : Settings α)
variable (state : State μ δ α τ σ) (data : List δ)

/-- The end of a search that is not broken off: its iterations, each of them with the model of its
first draw that is not degenerate or with nothing, and the best of these models. -/
structure Selects (s : Search μ α τ σ) (models : List (Option μ)) : Prop where
  iterations : Iterations draw family data settings.sampleTries state.model state.sampler models
    s.hypothesis s.sampler
  count_eq : s.iterations = models.length
  bounded : models.length ≤ settings.maxIterations
  /-- A search ends early only with enough inliers. -/
  ended : models.length = settings.maxIterations ∨ s.HasConsensus family
  selected : Selected family data settings.threshold models s.best

/-- The report on a selected model that was not estimated again. -/
def selectedSummary (s : Search μ α τ σ) (m : μ) : Summary δ α :=
  ⟨true, consensus family data settings.threshold m,
    data.filter fun d => !agrees family settings.threshold m d, s.iterations, settings.threshold,
    .count (consensus family data settings.threshold m).length⟩

/-- Without refit, a search succeeds exactly if the selected model has enough inliers and is
accepted, and the fit then reports this model and its consensus. -/
structure ReportsSelected (s : Search μ α τ σ)
    (outcome : Outcome (State μ δ α τ σ) Notice) : Prop where
  success_iff : outcome.answer = .ok true ↔ ∃ best, s.best = some best ∧
    family.minItems ≤ (consensus family data settings.threshold best.model).length ∧
    Stopping.Policy.accepts s.stopping
      (consensus family data settings.threshold best.model).length = .ok true
  reported : outcome.answer = .ok true → ∀ best, s.best = some best →
    outcome.state.model = best.model ∧
      outcome.state.summary = some (selectedSummary family settings data s best.model)

variable {family settings data}

omit [Stopping.Policy τ] in
/-- A candidate that is not estimated again is settled as it is, and its marks are the consensus of
its model. -/
theorem settle_of_selected (hrefits : settings.refits = false) {best : Candidate μ α}
    (hof : best = Candidate.of family data settings.threshold best.model) :
    settle family settings data best = (best.model, best.mask) ∧
      marks best.mask = (consensus family data settings.threshold best.model).length ∧
      partition data best.mask = (consensus family data settings.threshold best.model,
        data.filter fun d => !agrees family settings.threshold best.model d) := by
  have hmask : best.mask = data.map (agrees family settings.threshold best.model) := by
    rw [hof]
    exact (Candidate.of_sound family data settings.threshold best.model).mask_eq
  refine ⟨?_, ?_, ?_⟩
  · simp only [settle, hrefits, Bool.false_eq_true, if_false]
  · rw [hmask, marks_map]
    rfl
  · rw [hmask, partition_map]
    rfl

/-- Without refit, what a search has selected is what the fit ends with. -/
theorem conclude_reportsSelected (hrefits : settings.refits = false) {s : Search μ α τ σ}
    {models : List (Option μ)} (h : Selected family data settings.threshold models s.best) :
    ReportsSelected family settings data s (conclude family settings state data s) := by
  have hbest : ∀ best, s.best = some best →
      best.inliers = (consensus family data settings.threshold best.model).length := by
    intro best hbest
    rw [(h.optimum best hbest).1]
    exact Candidate.of_inliers _
  refine ⟨⟨?_, ?_⟩, ?_⟩
  · intro hanswer
    rcases conclude_cases family settings state data s with
      ⟨inliers, hend⟩ | ⟨best, cause, _, _, hend⟩ | ⟨best, hsome, henough, haccepts, hend⟩
    · rw [hend] at hanswer
      cases hanswer
    · rw [hend] at hanswer
      cases hanswer
    obtain ⟨hsettle, hmarks, -⟩ := settle_of_selected hrefits (h.optimum best hsome).1
    rw [hbest best hsome] at henough
    rw [hsettle, hmarks] at haccepts
    exact ⟨best, hsome, Nat.le_of_not_lt henough, haccepts⟩
  · rintro ⟨best, hsome, henough, haccepts⟩
    obtain ⟨hsettle, hmarks, -⟩ := settle_of_selected hrefits (h.optimum best hsome).1
    rw [← hbest best hsome] at henough
    simp only [conclude, hsome, if_neg (Nat.not_lt.mpr henough), hsettle, hmarks, haccepts]
  · intro hanswer best hsome
    rcases conclude_cases family settings state data s with
      ⟨inliers, hend⟩ | ⟨other, cause, _, _, hend⟩ | ⟨other, hother, _, _, hend⟩
    · rw [hend] at hanswer
      cases hanswer
    · rw [hend] at hanswer
      cases hanswer
    rw [hsome, Option.some.injEq] at hother
    subst hother
    obtain ⟨hsettle, hmarks, hpartition⟩ := settle_of_selected hrefits (h.optimum best hsome).1
    rw [hend, State.accepted, hsettle]
    refine ⟨rfl, ?_⟩
    simp only [hmarks, hpartition, selectedSummary]

variable [Scalar.Ordered α] [Summation.Nonneg α]
  (hresidual : ∀ m, ∀ d ∈ data, Extended.zero.le (family.residual m d) = true)

include hresidual in
/-- What is kept of the models of iterations is the candidate of the optimum.  The induction is on
the iterations, the last one being the outer one. -/
theorem kept_selected (models : List (Option μ)) : Selected family data settings.threshold models
    (kept family settings data models) := by
  induction models using List.reverseRecOn with
  | nil => exact Selected.start
  | append_singleton models outcome ih =>
    unfold kept at ih ⊢
    rw [List.foldl_append, List.foldl_cons, List.foldl_nil]
    cases outcome with
    | none => exact ih.append_none
    | some m => exact ih.append_some hresidual m

include hresidual in
/-- A fit fails on too few items, or is broken off by a draw or by the policy, or goes on from the
best model of all its iterations.  Without refit it ends with this model. -/
theorem fit_selects :
    (data.length < family.minItems ∧
        (fit family draw settings state data).answer = .ok false) ∨
      (family.minItems ≤ data.length ∧ ∃ cause,
        Search.BreaksOff family draw settings data state cause ∧
          (fit family draw settings state data).answer = .error cause) ∨
      family.minItems ≤ data.length ∧ ∃ s models,
        (Search.start family state data).run family draw settings data settings.maxIterations =
          (none, s) ∧
        Selects family draw settings state data s models ∧
        fit family draw settings state data = conclude family settings state data s ∧
        (settings.refits = false →
          ReportsSelected family settings data s (fit family draw settings state data)) := by
  have hreached : (Search.start family state data).Reached family draw settings data state [] :=
    Search.start_reached
  have hrun := hreached.run settings.maxIterations (by rw [List.length_nil, Nat.zero_add])
  rcases fit_cases family draw settings state data with
    ⟨hfew, hfit⟩ | ⟨cause, s, hmany, hend, hfit⟩ | ⟨s, hmany, hend, hfit⟩
  · exact Or.inl ⟨hfew, by rw [hfit]⟩
  · exact Or.inr (Or.inl ⟨Nat.le_of_not_lt hmany, cause, Search.breaksOff_of_run hend,
      by rw [hfit]⟩)
  · refine Or.inr (Or.inr ⟨Nat.le_of_not_lt hmany, s, ?_⟩)
    rcases hrun with ⟨other, hother, -⟩ | ⟨models, t, hother, ht, hbounded, hended⟩
    · rw [hend] at hother
      cases hother
    rw [hend, Prod.mk.injEq] at hother
    obtain ⟨-, rfl⟩ := hother
    have hselected : Selected family data settings.threshold models s.best := by
      rw [ht.best_eq]
      exact kept_selected hresidual models
    rw [List.length_nil, Nat.zero_add] at hended
    refine ⟨models, hend, ⟨ht.iterations, ht.count_eq, hbounded, hended, hselected⟩, hfit, ?_⟩
    intro hrefits
    rw [hfit]
    exact conclude_reportsSelected state hrefits hselected

/-- A search among numbers, two of which are equal.  A sample that holds the number seven is
degenerate, and the models 5 and 4 are found in this order. -/
theorem fit_selects_repeated_number :
    let family : Family Nat Nat Float :=
      ⟨1, fun _ sample => sample.head?.filter fun d => d != 7,
        fun m d => if m = d then .zero else .infinite⟩
    let draw : Sampler Nat := fun k available _ => (.ok [k % available], k + 1)
    let settings : Settings Float := ⟨.zero, 2, 2, false⟩
    let state : State Nat Nat Float (Stopping Float) Nat := ⟨9, .ofRule (.count 2), 1, none⟩
    let outcome := fit family draw settings state [4, 7, 5, 4]
    outcome.answer = .ok true ∧ outcome.state.model = 4 ∧ ∃ s models,
      Selects family draw settings state [4, 7, 5, 4] s models ∧
        ReportsSelected family settings [4, 7, 5, 4] s outcome := by
  intro family draw settings state outcome
  have hresidual : ∀ m, ∀ d ∈ [4, 7, 5, 4], Extended.zero.le (family.residual m d) = true := by
    intro m d _
    show Extended.zero.le (if m = d then .zero else .infinite) = true
    split
    · exact Extended.zero_le_zero
    · exact Extended.zero_le_infinite
  have hsuccess : outcome.answer = .ok true := rfl
  refine ⟨hsuccess, rfl, ?_⟩
  rcases fit_selects draw state hresidual with ⟨hfew, -⟩ | ⟨-, cause, -, hfault⟩ |
    ⟨-, s, models, -, hselects, -, hreports⟩
  · exact absurd hfew (by decide)
  · rw [show (fit family draw settings state [4, 7, 5, 4]).answer = .ok true from hsuccess] at hfault
    cases hfault
  · exact ⟨s, models, hselects, hreports rfl⟩

end Search

end Projectivity.Fitting.Ransac
