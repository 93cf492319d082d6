import Projectivity.Fitting.Lmeds
import Projectivity.Proofs.Fitting.Partition

/-!
# The search for the least median

The ways in which a fit by least median ends.  A fit that fails leaves the model of the
fitter alone, and a fit that succeeds reports the partition by the model that it leaves
behind.  What can break a fit off is the number of iterations, a sample, or a threshold
beyond the range of the scalars.
-/

set_option autoImplicit false

namespace Projectivity.Fitting.Lmeds

variable {μ δ α σ : Type} [Scalar α]
variable (family : Family μ δ α) (draw : Sampler σ) (settings : Settings α)
variable (state : State μ δ α σ) (data : List δ)

/-- The search that a fit begins with. -/
def Search.start : Search μ α σ := ⟨state.sampler, state.model, none⟩

/-- The state of a fitter whose search found nothing with a finite median. -/
def State.failed (sampler : σ) (count : Nat) : State μ δ α σ :=
  { state with sampler, summary := some (.failure count .zero .unscored) }

/-- The state of a fitter whose best model has too few inliers. -/
def State.rejected (count : Nat) (threshold median : Extended α) : State μ δ α σ :=
  { state with summary := some (.failure count threshold (.median median)) }

/-- The best model with its classification, after the refit if there is one. -/
def settle (threshold : Extended α) (best : Candidate μ α) : μ × List Bool :=
  let mask := classify family best.model data threshold
  if settings.refits then refit family data threshold refitRounds best.model mask
  else (best.model, mask)

/-- The state of a fitter whose search found a model that is kept with its mask. -/
def State.accepted (count : Nat) (threshold median : Extended α)
    (found : μ × List Bool) : State μ δ α σ :=
  { state with
    model := found.1
    summary := some ⟨true, (partition data found.2).1, (partition data found.2).2, count,
      threshold, .median median⟩ }

/-- A model that has enough inliers is settled together with a mask that supports it. -/
theorem settle_supports (threshold : Extended α) (best : Candidate μ α)
    (henough : ¬ marks (classify family best.model data threshold) < family.minItems) :
    Supports family data threshold (settle family settings data threshold best).1
      (settle family settings data threshold best).2 := by
  have hbest : Supports family data threshold best.model
      (classify family best.model data threshold) := ⟨rfl, Nat.le_of_not_lt henough⟩
  unfold settle
  by_cases hrefits : settings.refits = true
  · simp only [hrefits, if_true]
    exact hbest.refit refitRounds
  · simp only [hrefits]
    exact hbest

/-- After a search with a finite median a fit breaks off because its threshold is beyond all
numbers, or fails on too few inliers, or succeeds with the settled model. -/
theorem conclude_cases (count : Nat) (best : Candidate μ α) (median : α) :
    (∃ cause, robustThreshold settings median data.length family.minItems = .error cause ∧
        conclude family settings state data count best median = ⟨state, .error cause, []⟩) ∨
      ∃ value, robustThreshold settings median data.length family.minItems = .ok value ∧
        ((marks (classify family best.model data (.ofScalar value)) < family.minItems ∧
          conclude family settings state data count best median =
            ⟨state.rejected count (.ofScalar value) best.median, .ok false, []⟩) ∨
          (¬ marks (classify family best.model data (.ofScalar value)) < family.minItems ∧
            conclude family settings state data count best median =
              ⟨state.accepted data count (.ofScalar value) best.median
                (settle family settings data (.ofScalar value) best), .ok true, []⟩)) := by
  unfold conclude
  cases hvalue : robustThreshold settings median data.length family.minItems with
  | error cause => exact Or.inl ⟨cause, rfl, rfl⟩
  | ok value =>
    refine Or.inr ⟨value, rfl, ?_⟩
    simp only
    by_cases hfew : marks (classify family best.model data (.ofScalar value)) < family.minItems
    · rw [if_pos hfew]
      exact Or.inl ⟨hfew, rfl⟩
    · rw [if_neg hfew]
      exact Or.inr ⟨hfew, rfl⟩

/-- What breaks a fit on enough items off: there is no number of iterations, or a sample cannot be
drawn, or the threshold for the best median is beyond all numbers. -/
inductive BreaksOff : Fault → Prop where
  | iterations {cause : Fault} (h : iterations settings family.minItems = .error cause) :
      BreaksOff cause
  | search {cause : Fault} {count : Nat} {s : Search μ α σ}
      (hcount : iterations settings family.minItems = .ok count)
      (hrun : (Search.start state).run family draw settings data count = (some cause, s)) :
      BreaksOff cause
  | threshold {cause : Fault} {count : Nat} {s : Search μ α σ} {best : Candidate μ α}
      {median : α} (hcount : iterations settings family.minItems = .ok count)
      (hrun : (Search.start state).run family draw settings data count = (none, s))
      (hbest : s.best = some best) (hmedian : best.median = .finite median)
      (hfinite : Scalar.isFinite median = true)
      (hvalue : robustThreshold settings median data.length family.minItems = .error cause) :
      BreaksOff cause

/-- A search of the given number of iterations that ends without a finite median. -/
structure EndsWithoutMedian (count : Nat) (s : Search μ α σ) : Prop where
  count_eq : iterations settings family.minItems = .ok count
  run_eq : (Search.start state).run family draw settings data count = (none, s)
  infinite : ∀ best median, s.best = some best → best.median = .finite median →
    Scalar.isFinite median = false

/-- A search of the given number of iterations that ends with a finite median, and the threshold
that follows from it. -/
structure EndsWithMedian (count : Nat) (s : Search μ α σ) (best : Candidate μ α)
    (median value : α) : Prop where
  count_eq : iterations settings family.minItems = .ok count
  run_eq : (Search.start state).run family draw settings data count = (none, s)
  best_eq : s.best = some best
  median_eq : best.median = .finite median
  finite : Scalar.isFinite median = true
  threshold_eq : robustThreshold settings median data.length family.minItems = .ok value

/-- A fit ends at once on too few items, or breaks off, or finds no finite median, or is decided
by the threshold for its best median. -/
theorem fit_cases :
    (data.length < family.minItems ∧ fit family draw settings state data =
        ⟨state.failed state.sampler 0, .ok false,
          [.tooFewItems .lmeds family.minItems data.length]⟩) ∨
      (¬ data.length < family.minItems ∧
        ((∃ cause next, BreaksOff family draw settings state data cause ∧
            fit family draw settings state data = ⟨next, .error cause, []⟩) ∨
          (∃ count s, EndsWithoutMedian family draw settings state data count s ∧
            fit family draw settings state data = ⟨state.failed s.sampler count, .ok false, []⟩) ∨
          ∃ count s best median value,
            EndsWithMedian family draw settings state data count s best median value ∧
              fit family draw settings state data =
                conclude family settings { state with sampler := s.sampler } data count best
                  median)) := by
  unfold fit
  by_cases hfew : data.length < family.minItems
  · rw [if_pos hfew]
    exact Or.inl ⟨hfew, rfl⟩
  · rw [if_neg hfew]
    refine Or.inr ⟨hfew, ?_⟩
    cases hcount : iterations settings family.minItems with
    | error cause => exact Or.inl ⟨cause, state, .iterations hcount, rfl⟩
    | ok count =>
      rcases hrun : (Search.start state).run family draw settings data count with ⟨outcome, s⟩
      have hstart := hrun
      unfold Search.start at hstart
      simp only [hstart]
      cases outcome with
      | some cause => exact Or.inl ⟨cause, _, .search hcount hrun, rfl⟩
      | none =>
        cases hbest : s.best with
        | none =>
          refine Or.inr (Or.inl ⟨count, s, ⟨hcount, hrun, ?_⟩, by simp only [hbest]; rfl⟩)
          intro best median hsome
          rw [hbest] at hsome
          cases hsome
        | some best =>
          cases hmedian : best.median with
          | infinite =>
            refine Or.inr (Or.inl ⟨count, s, ⟨hcount, hrun, ?_⟩, by simp only [hbest, hmedian]; rfl⟩)
            intro other median hsome hother
            rw [hbest, Option.some.injEq] at hsome
            rw [← hsome, hmedian] at hother
            cases hother
          | finite median =>
            simp only [hbest, hmedian]
            by_cases hfinite : Scalar.isFinite median = true
            · simp only [hfinite, if_true]
              cases hvalue : robustThreshold settings median data.length family.minItems with
              | ok value =>
                exact Or.inr (Or.inr ⟨count, s, best, median, value,
                  ⟨hcount, hrun, hbest, hmedian, hfinite, hvalue⟩, rfl⟩)
              | error cause =>
                refine Or.inl ⟨cause, { state with sampler := s.sampler },
                  .threshold hcount hrun hbest hmedian hfinite hvalue, ?_⟩
                simp only [conclude, hvalue]
            · rw [if_neg hfinite]
              refine Or.inr (Or.inl ⟨count, s, ⟨hcount, hrun, ?_⟩, rfl⟩)
              intro other otherMedian hsome hother
              rw [hbest, Option.some.injEq] at hsome
              rw [← hsome, hmedian, Extended.finite.injEq] at hother
              rw [← hother]
              exact Bool.eq_false_iff.mpr hfinite

/-- What breaks a fit off is its answer. -/
theorem fit_answer_of_breaksOff {cause : Fault} (hmany : ¬ data.length < family.minItems)
    (h : BreaksOff family draw settings state data cause) :
    (fit family draw settings state data).answer = .error cause := by
  unfold fit
  rw [if_neg hmany]
  cases h with
  | iterations hcount => simp only [hcount]
  | search hcount hrun =>
    unfold Search.start at hrun
    simp only [hcount, hrun]
  | threshold hcount hrun hbest hmedian hfinite hvalue =>
    unfold Search.start at hrun
    simp only [hcount, hrun, hbest, hmedian, hfinite, if_true, conclude, hvalue]

end Projectivity.Fitting.Lmeds
