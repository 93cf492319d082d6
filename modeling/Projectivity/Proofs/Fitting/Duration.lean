import Mathlib.Order.Bounds.Basic
import Projectivity.Proofs.Exact.Confidence
import Projectivity.Proofs.Fitting.Consultation

/-!
# How long a search lasts

A search ends with the first iteration that yields a model and at which the rule of its
policy holds.  An iteration whose samples are all degenerate never ends it, although
the rule may hold there because of the iterations that have gone by, so a search can
last longer than its rule demands.
-/

set_option autoImplicit false

namespace Projectivity.Fitting.Ransac

variable {μ δ α τ σ : Type} [Scalar α] [Summation α] [Stopping.Policy τ]
variable {family : Family μ δ α} {draw : Sampler σ} {settings : Settings α}
variable {state : State μ δ α τ σ} {data : List δ} {rule : Nat → Nat → Prop}
variable {models : List (Option μ)} {s : Search μ α τ σ}

variable (family draw settings data) in
/-- The end of a search under a rule.  It ends with the first iteration that yields a model and at
which the rule holds.  That is the first iteration at which the rule holds exactly if no earlier
one at which it holds yields nothing. -/
structure Search.EndsBy (rule : Nat → Nat → Prop) (state : State μ δ α τ σ)
    (models : List (Option μ)) (s : Search μ α τ σ) : Prop where
  reached : s.Reached family draw settings data state models
  isLeast : IsLeast {i | Yields models i ∧ MayEnd family settings data rule models i ∨
    i = settings.maxIterations} s.iterations
  onTime_iff : IsLeast {i | MayEnd family settings data rule models i ∨
      i = settings.maxIterations} s.iterations ↔
    ∀ i < s.iterations, MayEnd family settings data rule models i → Yields models i

/-- A search ends by its rule or by its limit if this is where it ends. -/
theorem Search.Reached.endsBy (h : s.Reached family draw settings data state models)
    (hbound : models.length ≤ settings.maxIterations)
    (hend : Yields models models.length ∧
      MayEnd family settings data rule models models.length ∨
        models.length = settings.maxIterations)
    (hbefore : ∀ i < models.length, Yields models i →
      ¬ MayEnd family settings data rule models i) :
    s.EndsBy family draw settings data rule state models := by
  have hleast : IsLeast {i | Yields models i ∧ MayEnd family settings data rule models i ∨
      i = settings.maxIterations} s.iterations := by
    rw [h.count_eq]
    refine ⟨hend, ?_⟩
    rintro i (⟨hyields, hmayEnd⟩ | rfl)
    · exact Nat.le_of_not_lt fun hi => hbefore i hi hyields hmayEnd
    · exact hbound
  refine ⟨h, hleast, ?_, ?_⟩
  · intro hfirst i hi hmayEnd
    exact absurd (hfirst.2 (Or.inl hmayEnd)) (Nat.not_le.mpr hi)
  · intro hyields
    refine ⟨hleast.1.imp_left And.right, ?_⟩
    rintro i (hmayEnd | rfl)
    · -- An earlier iteration at which the rule holds would yield a model and end the search.
      refine Nat.le_of_not_lt fun hi => ?_
      exact Nat.not_le.mpr hi (hleast.2 (Or.inl ⟨hyields i hi hmayEnd, hmayEnd⟩))
    · exact hleast.2 (Or.inr rfl)

omit [Summation α] in
/-- A fit that gives an answer reports the iterations of its search. -/
theorem conclude_iterations (s : Search μ α τ σ) {found : Bool}
    (h : (conclude family settings state data s).answer = .ok found) :
    ∃ summary, (conclude family settings state data s).state.summary = some summary ∧
      summary.iterations = s.iterations := by
  rcases conclude_cases family settings state data s with
    ⟨inliers, hend⟩ | ⟨best, cause, -, -, hend⟩ | ⟨best, -, -, -, hend⟩
  · rw [hend]
    exact ⟨_, rfl, rfl⟩
  · rw [hend] at h
    cases h
  · rw [hend]
    exact ⟨_, rfl, rfl⟩

variable (family draw settings state data)

/-- Under a policy that follows a rule a fit on enough items is broken off, or goes through the
iterations up to the first one that yields a model and at which the rule holds, and reports their
number. -/
theorem fit_endsBy
    (hfollows : Stopping.Follows state.stopping data.length family.minItems rule) :
    (data.length < family.minItems ∧
        (fit family draw settings state data).answer = .ok false) ∨
      (family.minItems ≤ data.length ∧ ∃ cause,
        Search.BreaksOff family draw settings data state cause ∧
          (fit family draw settings state data).answer = .error cause) ∨
      family.minItems ≤ data.length ∧ ∃ s models,
        (Search.start family state data).run family draw settings data settings.maxIterations =
          (none, s) ∧
        s.EndsBy family draw settings data rule state models ∧
        ∀ found, (fit family draw settings state data).answer = .ok found →
          ∃ summary, (fit family draw settings state data).state.summary = some summary ∧
            summary.iterations = s.iterations := by
  rcases fit_cases family draw settings state data with
    ⟨hfew, hfit⟩ | ⟨cause, s, hmany, hend, hfit⟩ | ⟨s, hmany, hend, hfit⟩
  · exact Or.inl ⟨hfew, by rw [hfit]⟩
  · exact Or.inr (Or.inl ⟨Nat.le_of_not_lt hmany, cause, Search.breaksOff_of_run hend,
      by rw [hfit]⟩)
  · refine Or.inr (Or.inr ⟨Nat.le_of_not_lt hmany, s, ?_⟩)
    obtain ⟨early, hends⟩ := (Search.run_eq_none_iff family draw settings data).mp hend
    obtain ⟨models, hlength, hfound⟩ :=
      Search.Undecided.ends hfollows hends Search.start_undecided
    rw [List.length_nil, Nat.zero_add] at hlength hfound
    refine ⟨models, hend, ?_, ?_⟩
    · rcases hfound with ⟨-, hdecided⟩ | ⟨-, hall, hundecided⟩
      · exact hdecided.reached.endsBy hlength (Or.inl ⟨hdecided.yields, hdecided.mayEnd⟩)
          hdecided.not_mayEnd
      · exact hundecided.reached.endsBy hlength (Or.inr hall)
          fun i _ hyields => hundecided.not_mayEnd i hyields
    · intro found hanswer
      rw [hfit] at hanswer ⊢
      exact conclude_iterations s hanswer

/-- A search for two equal numbers among four ends with its third iteration, the second one having
yielded nothing. -/
theorem fit_endsBy_of_equal_numbers :
    let settings : Settings Float := ⟨.zero, 9, 1, false⟩
    let state : State Nat Nat Float (Stopping Float) Nat := ⟨0, .ofRule (.count 2), 0, none⟩
    let rule := fun inliers iteration : Nat => (Stopping.Rule.count 2 : Stopping.Rule Float).Holds
      4 1 inliers iteration
    Stopping.Follows state.stopping 4 1 rule ∧
      ∃ (s : Search Nat Float (Stopping Float) Nat) (models : List (Option Nat)),
      s.EndsBy (numbers Float) inTurn settings [5, 7, 4, 4] rule state models ∧
        s.iterations = 3 := by
  intro settings state rule
  have hfollows : Stopping.Follows state.stopping 4 1 rule :=
    Stopping.follows_holds state.stopping 4 1
  refine ⟨hfollows, ?_⟩
  have hanswer : (fit (numbers Float) inTurn settings state [5, 7, 4, 4]).answer = .ok true := rfl
  rcases fit_endsBy (numbers Float) inTurn settings state [5, 7, 4, 4] hfollows with
    ⟨hfew, -⟩ | ⟨-, cause, -, hfault⟩ | ⟨-, s, models, -, hends, hreports⟩
  · exact absurd hfew (by decide)
  · rw [hanswer] at hfault
    cases hfault
  · obtain ⟨summary, hsummary, hiterations⟩ := hreports true hanswer
    refine ⟨s, models, hends, ?_⟩
    rw [← hiterations]
    have hthree : (fit (numbers Float) inTurn settings state [5, 7, 4, 4]).state.summary.map
        Summary.iterations = some 3 := rfl
    rw [hsummary] at hthree
    exact Option.some.inj hthree

/-- Two items, one of which makes a sample degenerate.  The second iteration yields nothing, and the
adaptive rule holds there; but the search goes on and ends with the third one. -/
theorem not_endsOnTime_of_degenerate_iteration :
    let state := untilConfident (3 / 4)
    let rule := fun inliers iteration : Nat => state.stopping.rule.Holds 2 1 inliers iteration
    ∃ (s : Search Nat ℝ (Stopping ℝ) Nat) (models : List (Option Nat)),
      (Search.start (numbers ℝ) state [4, 7]).run (numbers ℝ) inTurn nineSamples [4, 7] 9 =
        (none, s) ∧
      s.Reached (numbers ℝ) inTurn nineSamples [4, 7] state models ∧
      s.iterations = 3 ∧ MayEnd (numbers ℝ) nineSamples [4, 7] rule models 2 ∧
      ¬ IsLeast {i | MayEnd (numbers ℝ) nineSamples [4, 7] rule models i ∨ i = 9}
        s.iterations := by
  intro state rule
  have hrun := (Search.run_eq_none_iff _ _ _ _).mpr
    ⟨true, ends_untilConfident requiredIterations_half⟩
  have hreached : Search.Reached (numbers ℝ) inTurn nineSamples [4, 7] state
      [some 4, none, some 4] ⟨3, 4, some four, requiresTwo (3 / 4), 3⟩ := by
    refine ⟨?_, rfl, congrArg some (ite_self _).symm, ?_⟩
    · have hfour : ∀ m k, k % 2 = 0 →
          Iteration inTurn (numbers ℝ) [4, 7] 1 m k (some 4) (k + 1) := by
        intro m k heven
        have hsample : sampleAt inTurn [4, 7] 1 k 0 = .ok [4] := by
          simp [sampleAt, drawn, inTurn, heven, pick]
        exact .found (k := 0) ⟨fun j hj => absurd hj (Nat.not_lt_zero j), [4], hsample, rfl⟩
          Nat.one_pos
      have hseven : Iteration inTurn (numbers ℝ) [4, 7] 1 4 1 none 2 := by
        refine .nothing fun j hj => ?_
        obtain rfl : j = 0 := Nat.lt_one_iff.mp hj
        exact ⟨[7], rfl, rfl⟩
      exact .next (.next (.next .start (hfour 0 0 rfl)) hseven) (hfour 4 2 rfl)
    · have hasked : (Stopping.Policy.shouldStop (state.stopping.start 2 1) (1 : ℤ) 1).2 =
          requiresTwo (3 / 4) :=
        congrArg Prod.snd (shouldStop_untilConfident requiredIterations_half 1)
      exact hasked ▸ .ask .start 1 1
  have hmayEnd : MayEnd (numbers ℝ) nineSamples [4, 7] rule [some 4, none, some 4] 2 := by
    refine ⟨four, rfl, four_inliers.ge, 2, ?_, le_rfl⟩
    have hhalf := requiredIterations_half
    simpa [four_inliers] using hhalf
  refine ⟨_, _, hrun, hreached, rfl, hmayEnd, fun hleast => ?_⟩
  exact absurd (hleast.2 (Or.inl hmayEnd)) (by decide)

end Projectivity.Fitting.Ransac
