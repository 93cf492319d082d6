import Projectivity.Fitting.Ransac
import Projectivity.Proofs.Fitting.Partition

/-!
# The search for consensus

What one iteration of a search does, what every iteration keeps, and the ways in
which a fit ends.  The best candidate of a search always carries the mask of its own
model, because the two are only ever replaced together.
-/

set_option autoImplicit false

namespace Projectivity.Fitting.Ransac

variable {μ δ α τ σ : Type} [Scalar α] [Summation α] [Stopping.Policy τ]

section Candidates

variable (family : Family μ δ α) (data : List δ) (threshold : Extended α)

/-- A candidate with the mask of its model and the number of its marks. -/
structure Candidate.Sound (c : Candidate μ α) : Prop where
  mask_eq : c.mask = classify family c.model data threshold
  inliers_eq : c.inliers = marks c.mask

/-- The candidate of a model is sound. -/
theorem Candidate.of_sound (m : μ) :
    (Candidate.of family data threshold m).Sound family data threshold := by
  refine ⟨?_, rfl⟩
  simp only [Candidate.of, classify, List.map_map]
  rfl

omit [Summation α] in
/-- The better one of two candidates is the new one, or the old one stays. -/
theorem Candidate.better_cases (best : Option (Candidate μ α)) (a : Candidate μ α) :
    Candidate.better best a = a ∨ best = some (Candidate.better best a) := by
  cases best with
  | none => exact Or.inl rfl
  | some b =>
    unfold Candidate.better
    by_cases h : a.beats b = true
    · exact Or.inl (if_pos h)
    · exact Or.inr (by simp only [if_neg h])

omit [Summation α] in
/-- A sound candidate with enough inliers has a mask that supports its model. -/
theorem Candidate.Sound.supports {family : Family μ δ α} {data : List δ}
    {threshold : Extended α} {c : Candidate μ α} (h : c.Sound family data threshold)
    (henough : ¬ c.inliers < family.minItems) :
    Supports family data threshold c.model c.mask := by
  refine ⟨h.mask_eq, ?_⟩
  rw [← h.inliers_eq]
  exact Nat.le_of_not_lt henough

omit [Summation α] in
/-- A sound candidate has no more inliers than there are items. -/
theorem Candidate.Sound.inliers_le {family : Family μ δ α} {data : List δ}
    {threshold : Extended α} {c : Candidate μ α} (h : c.Sound family data threshold) :
    c.inliers ≤ data.length := by
  rw [h.inliers_eq, h.mask_eq, classify_eq_map, marks_map]
  exact List.length_filter_le _ data

end Candidates

section Steps

variable (family : Family μ δ α) (draw : Sampler σ) (settings : Settings α) (data : List δ)

omit [Summation α] in
/-- A search that considers a candidate keeps the better one. -/
theorem Search.consider_best (s : Search μ α τ σ) (a : Candidate μ α) :
    (s.consider family a).2.best = some (Candidate.better s.best a) := by
  unfold Search.consider
  simp only
  split <;> rfl

omit [Summation α] in
/-- Considering a candidate is no iteration. -/
theorem Search.consider_iterations (s : Search μ α τ σ) (a : Candidate μ α) :
    (s.consider family a).2.iterations = s.iterations := by
  unfold Search.consider
  simp only
  split <;> rfl

/-- What a search knows at any time: its best candidate is sound, and an iteration was begun
before there was one. -/
structure Search.Sound (s : Search μ α τ σ) : Prop where
  candidate : ∀ best, s.best = some best → best.Sound family data settings.threshold
  begun : s.best ≠ none → 1 ≤ s.iterations

/-- A step is one iteration. -/
theorem Search.step_iterations (s : Search μ α τ σ) :
    (s.step family draw settings data).2.iterations = s.iterations + 1 := by
  unfold Search.step
  simp only
  split
  · rfl
  · rfl
  · rw [Search.consider_iterations]

/-- The best candidate after an iteration is the one before it or the better of that and the
candidate of the model that was found. -/
theorem Search.step_best (s : Search μ α τ σ) :
    (s.step family draw settings data).2.best = s.best ∨
      ∃ m, (s.step family draw settings data).2.best =
        some (Candidate.better s.best (Candidate.of family data settings.threshold m)) := by
  unfold Search.step
  simp only
  split
  · exact Or.inl rfl
  · exact Or.inl rfl
  · rename_i m _
    refine Or.inr ⟨m, ?_⟩
    rw [Search.consider_best]

/-- The policy of a search after an iteration is the one before it, or that policy once it has been
asked whether to stop. -/
theorem Search.step_stopping (s : Search μ α τ σ) :
    (s.step family draw settings data).2.stopping = s.stopping ∨
      ∃ inliers iteration : Int, (s.step family draw settings data).2.stopping =
        (Stopping.Policy.shouldStop s.stopping inliers iteration).2 := by
  unfold Search.step
  simp only
  split
  · exact Or.inl rfl
  · exact Or.inl rfl
  · unfold Search.consider
    simp only
    split
    · exact Or.inl rfl
    · exact Or.inr ⟨_, _, rfl⟩

/-- An iteration keeps what a search knows. -/
theorem Search.Sound.step {s : Search μ α τ σ} (h : s.Sound family settings data) :
    (s.step family draw settings data).2.Sound family settings data := by
  refine ⟨?_, fun _ => by rw [Search.step_iterations]; omega⟩
  intro best hbest
  rcases Search.step_best family draw settings data s with hkeep | ⟨m, hnew⟩
  · rw [hkeep] at hbest
    exact h.candidate best hbest
  · rw [hnew, Option.some.injEq] at hbest
    subst hbest
    -- Which of the two candidates beats the other does not matter, since both are sound.
    rcases Candidate.better_cases s.best (Candidate.of family data settings.threshold m)
      with ha | hb
    · rw [ha]
      exact Candidate.of_sound family data settings.threshold m
    · exact h.candidate _ hb

/-- A whole search keeps what every iteration keeps.  The induction is on the iterations that are
left. -/
theorem Search.run_invariant (P : Search μ α τ σ → Prop)
    (hstep : ∀ s, P s → P (s.step family draw settings data).2) (n : Nat)
    (s : Search μ α τ σ) (h : P s) : P (s.run family draw settings data n).2 := by
  induction n generalizing s with
  | zero => exact h
  | succ n ih =>
    have hnext := hstep s h
    unfold Search.run
    split
    · rename_i next hs
      rw [hs] at hnext
      exact ih next hnext
    · rename_i next hs
      rw [hs] at hnext
      exact hnext
    · rename_i cause next hs
      rw [hs] at hnext
      exact hnext

/-- What a policy keeps whenever it is asked whether to stop, it keeps through a whole search. -/
theorem Search.run_stopping (P : τ → Prop)
    (hask : ∀ t inliers iteration, P t → P (Stopping.Policy.shouldStop t inliers iteration).2)
    (n : Nat) (s : Search μ α τ σ) (h : P s.stopping) :
    P (s.run family draw settings data n).2.stopping := by
  refine Search.run_invariant family draw settings data (fun s => P s.stopping) ?_ n s h
  intro s hs
  rcases Search.step_stopping family draw settings data s with hkeep | ⟨inliers, iteration, hnext⟩
  · rw [hkeep]
    exact hs
  · rw [hnext]
    exact hask s.stopping inliers iteration hs

/-- A run has as many iterations as it may take at most. -/
theorem Search.run_iterations_le (n : Nat) (s : Search μ α τ σ) :
    (s.run family draw settings data n).2.iterations ≤ s.iterations + n := by
  induction n generalizing s with
  | zero => exact Nat.le_refl _
  | succ n ih =>
    have hcount := Search.step_iterations family draw settings data s
    unfold Search.run
    split
    · rename_i next hs
      rw [hs] at hcount
      have hrest := ih next
      simp only at hcount
      omega
    · rename_i next hs
      rw [hs] at hcount
      simp only at hcount ⊢
      omega
    · rename_i cause next hs
      rw [hs] at hcount
      simp only at hcount ⊢
      omega

end Steps

section Endings

variable (family : Family μ δ α) (draw : Sampler σ) (settings : Settings α)
variable (state : State μ δ α τ σ) (data : List δ)

/-- The search that a fit begins with. -/
def Search.start : Search μ α τ σ :=
  ⟨state.sampler, state.model, none,
    Stopping.Policy.start state.stopping data.length family.minItems, 0⟩

omit [Summation α] in
/-- A search that has not begun knows nothing. -/
theorem Search.start_sound : (Search.start family state data).Sound family settings data := by
  refine ⟨?_, fun h => absurd rfl h⟩
  intro best hbest
  cases hbest

/-- The state of a fitter after a search: its policy and its random state have moved on, its model
and its report have not. -/
def State.after (s : Search μ α τ σ) : State μ δ α τ σ :=
  { state with stopping := s.stopping, sampler := s.sampler }

/-- The state of a fitter whose search found nothing acceptable. -/
def State.failed (s : Search μ α τ σ) (inliers : Nat) : State μ δ α τ σ :=
  { state.after s with
    summary := some (.failure s.iterations settings.threshold (.count inliers)) }

/-- The state of a fitter whose search found a model that is accepted with its mask. -/
def State.accepted (s : Search μ α τ σ) (found : μ × List Bool) : State μ δ α τ σ :=
  { state.after s with
    model := found.1
    summary := some ⟨true, (partition data found.2).1, (partition data found.2).2, s.iterations,
      settings.threshold, .count (marks found.2)⟩ }

omit [Summation α] in
/-- After its search a fit fails, or breaks off because the policy gives no answer, or succeeds
with the settled best candidate, which then has enough inliers and is acceptable. -/
theorem conclude_cases (s : Search μ α τ σ) :
    (∃ inliers, conclude family settings state data s =
        ⟨state.failed settings s inliers, .ok false, []⟩) ∨
      (∃ best cause, s.best = some best ∧
        Stopping.Policy.accepts s.stopping (marks (settle family settings data best).2) =
          .error cause ∧
        conclude family settings state data s = ⟨state.after s, .error cause, []⟩) ∨
      ∃ best, s.best = some best ∧ ¬ best.inliers < family.minItems ∧
        Stopping.Policy.accepts s.stopping (marks (settle family settings data best).2) =
          .ok true ∧
        conclude family settings state data s =
          ⟨state.accepted settings data s (settle family settings data best), .ok true, []⟩ := by
  unfold conclude
  cases hbest : s.best with
  | none => exact Or.inl ⟨0, rfl⟩
  | some best =>
    simp only
    by_cases hfew : best.inliers < family.minItems
    · rw [if_pos hfew]
      exact Or.inl ⟨best.inliers, rfl⟩
    · rw [if_neg hfew]
      cases hacc : Stopping.Policy.accepts s.stopping
          (marks (settle family settings data best).2) with
      | error cause => exact Or.inr (Or.inl ⟨best, cause, rfl, hacc, rfl⟩)
      | ok accepted =>
        cases accepted with
        | false => exact Or.inl ⟨marks (settle family settings data best).2, rfl⟩
        | true => exact Or.inr (Or.inr ⟨best, rfl, hfew, hacc, rfl⟩)

/-- A fit ends at once on too few items, or breaks off in its search, or is decided by the search
that has ended. -/
theorem fit_cases :
    (data.length < family.minItems ∧ fit family draw settings state data =
        ⟨{ state with summary := some (.failure 0 settings.threshold .unscored) }, .ok false,
          [.tooFewItems .ransac family.minItems data.length]⟩) ∨
      (∃ cause s, ¬ data.length < family.minItems ∧
        (Search.start family state data).run family draw settings data settings.maxIterations =
          (some cause, s) ∧
        fit family draw settings state data = ⟨state.after s, .error cause, []⟩) ∨
      ∃ s, ¬ data.length < family.minItems ∧
        (Search.start family state data).run family draw settings data settings.maxIterations =
          (none, s) ∧
        fit family draw settings state data = conclude family settings state data s := by
  unfold fit
  by_cases hfew : data.length < family.minItems
  · rw [if_pos hfew]
    exact Or.inl ⟨hfew, rfl⟩
  · rw [if_neg hfew]
    refine Or.inr ?_
    rcases hrun : (Search.start family state data).run family draw settings data
        settings.maxIterations with ⟨outcome, s⟩
    unfold Search.start at hrun
    simp only [hrun]
    cases outcome with
    | some cause => exact Or.inl ⟨cause, s, hfew, rfl, rfl⟩
    | none => exact Or.inr ⟨s, hfew, rfl, rfl⟩

omit [Summation α] in
/-- The model and the mask that a sound candidate is settled to belong together. -/
theorem settle_supports {best : Candidate μ α}
    (hsound : best.Sound family data settings.threshold)
    (henough : ¬ best.inliers < family.minItems) :
    Supports family data settings.threshold (settle family settings data best).1
      (settle family settings data best).2 := by
  have hbest := hsound.supports henough
  unfold settle
  by_cases hrefits : settings.refits = true
  · rw [if_pos hrefits]
    exact hbest.refit refitRounds
  · rw [if_neg hrefits]
    exact hbest

/-- What a search ends with is sound. -/
theorem search_sound {outcome : Option Fault} {s : Search μ α τ σ}
    (hrun : (Search.start family state data).run family draw settings data
      settings.maxIterations = (outcome, s)) :
    s.Sound family settings data := by
  have hinv := Search.run_invariant family draw settings data (Search.Sound family settings data)
    (fun s h => h.step family draw settings data) settings.maxIterations
    (Search.start family state data) (Search.start_sound family settings state data)
  rw [hrun] at hinv
  exact hinv

/-- A search has at most as many iterations as the settings allow. -/
theorem search_iterations_le {outcome : Option Fault} {s : Search μ α τ σ}
    (hrun : (Search.start family state data).run family draw settings data
      settings.maxIterations = (outcome, s)) :
    s.iterations ≤ settings.maxIterations := by
  have hle := Search.run_iterations_le family draw settings data settings.maxIterations
    (Search.start family state data)
  rw [hrun] at hle
  simpa [Search.start] using hle

end Endings

end Projectivity.Fitting.Ransac
