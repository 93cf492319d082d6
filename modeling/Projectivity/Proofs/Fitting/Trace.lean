import Projectivity.Proofs.Fitting.Iteration
import Projectivity.Proofs.Fitting.Stopping

/-!
# What a search has gone through

A search for consensus is a chain of iterations, and its best candidate is what is kept
of their models one after the other.  It ends after its last iteration, or as soon as
the policy says so about a candidate with enough inliers; a draw that fails and a policy
that gives no answer break it off.
-/

set_option autoImplicit false

namespace Projectivity.Fitting.Ransac

variable {μ δ α τ σ : Type} [Scalar α] [Summation α] [Stopping.Policy τ]
variable (family : Family μ δ α) (draw : Sampler σ) (settings : Settings α) (data : List δ)

/-- The best candidate after an iteration that yields a model or nothing. -/
def keep (best : Option (Candidate μ α)) : Option μ → Option (Candidate μ α)
  | some m => some (Candidate.better best (Candidate.of family data settings.threshold m))
  | none => best

/-- The best candidate after a number of iterations. -/
def kept (models : List (Option μ)) : Option (Candidate μ α) :=
  models.foldl (keep family settings data) none

/-- What a policy becomes while it is asked whether to stop. -/
inductive Asked (first : τ) : τ → Prop where
  | start : Asked first first
  | ask {t : τ} (before : Asked first t) (inliers iteration : Int) :
      Asked first (Stopping.Policy.shouldStop t inliers iteration).2

omit [Stopping.Policy τ] [Summation α] in
/-- A rule that has been asked is set up as it was. -/
theorem Asked.setUp {s t : Stopping α} {items sampleSize : Int}
    (h : Asked (s.start items sampleSize) t) :
    Stopping.SetUp s.rule items sampleSize t := by
  induction h with
  | start => exact Stopping.start_setUp s items sampleSize
  | ask _ inliers iteration ih => exact ih.shouldStop inliers iteration

/-- A search has a best candidate with enough inliers. -/
def Search.HasConsensus (s : Search μ α τ σ) : Prop :=
  ∃ best, s.best = some best ∧ family.minItems ≤ best.inliers

/-- What one iteration that is not broken off does to a search. -/
structure Search.Advances (s : Search μ α τ σ) (outcome : Option μ) (next : Search μ α τ σ) :
    Prop where
  iteration : Iteration draw family data settings.sampleTries s.hypothesis s.sampler outcome
    next.sampler
  hypothesis_eq : next.hypothesis = outcome.getD s.hypothesis
  best_eq : next.best = keep family settings data s.best outcome
  iterations_eq : next.iterations = s.iterations + 1
  stopping_eq : next.stopping = s.stopping ∨ ∃ inliers iteration : Int,
    next.stopping = (Stopping.Policy.shouldStop s.stopping inliers iteration).2

/-- A search has gone through iterations that yielded the given models, beginning in the state of a
fitter. -/
structure Search.Reached (state : State μ δ α τ σ) (models : List (Option μ))
    (s : Search μ α τ σ) : Prop where
  iterations : Iterations draw family data settings.sampleTries state.model state.sampler models
    s.hypothesis s.sampler
  count_eq : s.iterations = models.length
  best_eq : s.best = kept family settings data models
  asked : Asked (Stopping.Policy.start state.stopping data.length family.minItems) s.stopping

/-- What breaks a search off: a draw of an iteration fails, or the policy gives no answer on a best
candidate with enough inliers. -/
inductive Search.BreaksOff (state : State μ δ α τ σ) (cause : Fault) : Prop where
  | draw {models : List (Option μ)} {s : Search μ α τ σ} {k : Nat}
      (reached : s.Reached family draw settings data state models)
      (begun : models.length < settings.maxIterations) (inTime : k < settings.sampleTries)
      (failed : FirstFailed draw family data s.hypothesis s.sampler k cause)
  | policy {models : List (Option μ)} {s next : Search μ α τ σ} {outcome : Option μ}
      {best : Candidate μ α} (reached : s.Reached family draw settings data state models)
      (begun : models.length < settings.maxIterations)
      (advances : s.Advances family draw settings data outcome next)
      (best_eq : next.best = some best) (enough : family.minItems ≤ best.inliers)
      (failed : (Stopping.Policy.shouldStop s.stopping best.inliers next.iterations).1 =
        .error cause)

/-- The outcome of an iteration, what the policy has been asked for it, and the verdict.  The policy
is asked about the best candidate after an iteration that yields a model, if that candidate has
enough inliers; the arguments are the policy before and the search after. -/
inductive Search.Consults (policy : τ) (next : Search μ α τ σ) : Option μ → Verdict → Prop where
  | nothing (kept : next.stopping = policy) : Consults policy next none .goOn
  | tooFew {m : μ} {best : Candidate μ α} (best_eq : next.best = some best)
      (few : best.inliers < family.minItems) (kept : next.stopping = policy) :
      Consults policy next (some m) .goOn
  | goOn {m : μ} {best : Candidate μ α} (best_eq : next.best = some best)
      (enough : family.minItems ≤ best.inliers)
      (answer : Stopping.Policy.shouldStop policy best.inliers next.iterations =
        (.ok false, next.stopping)) : Consults policy next (some m) .goOn
  | stop {m : μ} {best : Candidate μ α} (best_eq : next.best = some best)
      (enough : family.minItems ≤ best.inliers)
      (answer : Stopping.Policy.shouldStop policy best.inliers next.iterations =
        (.ok true, next.stopping)) : Consults policy next (some m) .stop
  | fault {m : μ} {best : Candidate μ α} {cause : Fault} (best_eq : next.best = some best)
      (enough : family.minItems ≤ best.inliers)
      (answer : Stopping.Policy.shouldStop policy best.inliers next.iterations =
        (.error cause, next.stopping)) : Consults policy next (some m) (.fault cause)

omit [Summation α] in
/-- A further candidate becomes the model of the last sample and may replace the best one. -/
theorem Search.consider_cases (s : Search μ α τ σ) (a : Candidate μ α) :
    ∃ verdict policy, s.consider family a = (verdict,
        { s with
          hypothesis := a.model
          best := some (Candidate.better s.best a)
          stopping := policy }) ∧
      Search.Consults family s.stopping (s.consider family a).2 (some a.model) verdict := by
  unfold Search.consider
  simp only
  by_cases hfew : (Candidate.better s.best a).inliers < family.minItems
  · rw [if_pos hfew]
    exact ⟨.goOn, s.stopping, rfl, .tooFew rfl hfew rfl⟩
  rw [if_neg hfew]
  rcases hasked : Stopping.Policy.shouldStop s.stopping (Candidate.better s.best a).inliers
    s.iterations with ⟨answer, policy⟩
  have henough := Nat.le_of_not_lt hfew
  cases answer with
  | error cause => exact ⟨.fault cause, policy, rfl, .fault rfl henough hasked⟩
  | ok stops =>
    cases stops with
    | false => exact ⟨.goOn, policy, rfl, .goOn rfl henough hasked⟩
    | true => exact ⟨.stop, policy, rfl, .stop rfl henough hasked⟩

/-- An iteration is broken off by a draw, or advances the search and then consults the policy. -/
theorem Search.step_cases (s : Search μ α τ σ) :
    (∃ k < settings.sampleTries, ∃ cause, FirstFailed draw family data s.hypothesis s.sampler k
        cause ∧ (s.step family draw settings data).1 = .fault cause) ∨
      ∃ outcome verdict next, s.Advances family draw settings data outcome next ∧
        Search.Consults family s.stopping next outcome verdict ∧
        s.step family draw settings data = (verdict, next) := by
  have hstopping := Search.step_stopping family draw settings data s
  unfold Search.step at hstopping ⊢
  rcases estimateFromSample_cases draw family data settings.sampleTries s.hypothesis s.sampler with
    ⟨outcome, sampler, hiteration, hestimate⟩ | ⟨k, hk, cause, hfirst, hestimate⟩
  · refine Or.inr ⟨outcome, ?_⟩
    simp only [hestimate] at hstopping ⊢
    cases outcome with
    | none =>
      exact ⟨.goOn, { s with sampler, iterations := s.iterations + 1 },
        ⟨hiteration, rfl, rfl, rfl, Or.inl rfl⟩, .nothing rfl, rfl⟩
    | some m =>
      obtain ⟨verdict, policy, hconsider, hconsults⟩ := Search.consider_cases family
        { s with sampler, iterations := s.iterations + 1 }
        (Candidate.of family data settings.threshold m)
      simp only [hconsider] at hstopping hconsults
      exact ⟨verdict, _, ⟨hiteration, rfl, rfl, rfl, hstopping⟩, hconsults, hconsider⟩
  · refine Or.inl ⟨k, hk, cause, hfirst, ?_⟩
    rcases hsample : estimateFromSample family draw data s.hypothesis settings.sampleTries
      s.sampler with ⟨answer, sampler⟩
    rw [hsample] at hestimate
    cases hestimate
    rfl

variable {family draw settings data} {state : State μ δ α τ σ} {models : List (Option μ)}

/-- A search has reached nothing at its start. -/
theorem Search.start_reached :
    (Search.start family state data).Reached family draw settings data state [] :=
  ⟨.start, rfl, rfl, .start⟩

/-- A search that advances has gone through one more iteration. -/
theorem Search.Reached.advance {s next : Search μ α τ σ} {outcome : Option μ}
    (h : s.Reached family draw settings data state models)
    (hnext : s.Advances family draw settings data outcome next) :
    next.Reached family draw settings data state (models ++ [outcome]) := by
  refine ⟨?_, ?_, ?_, ?_⟩
  · rw [hnext.hypothesis_eq]
    exact .next h.iterations hnext.iteration
  · rw [hnext.iterations_eq, h.count_eq, List.length_append, List.length_singleton]
  · rw [hnext.best_eq, h.best_eq, kept, kept, List.foldl_append, List.foldl_cons,
      List.foldl_nil]
  · rcases hnext.stopping_eq with hkeep | ⟨inliers, iteration, hasked⟩
    · rw [hkeep]
      exact h.asked
    · rw [hasked]
      exact .ask h.asked inliers iteration

/-- A search is broken off, or goes through all of its iterations, or ends earlier with a consensus.
The induction is on the iterations that are left. -/
theorem Search.Reached.run (n : Nat) {s : Search μ α τ σ}
    (h : s.Reached family draw settings data state models)
    (hn : models.length + n ≤ settings.maxIterations) :
    (∃ cause, (s.run family draw settings data n).1 = some cause ∧
        Search.BreaksOff family draw settings data state cause) ∨
      ∃ found t, s.run family draw settings data n = (none, t) ∧
        t.Reached family draw settings data state found ∧
        found.length ≤ settings.maxIterations ∧
        (found.length = models.length + n ∨ t.HasConsensus family) := by
  induction n generalizing s models with
  | zero => exact Or.inr ⟨models, s, rfl, h, hn, Or.inl rfl⟩
  | succ n ih =>
    rw [Search.run]
    rcases Search.step_cases family draw settings data s with
      ⟨k, hk, cause, hfirst, hfault⟩ | ⟨outcome, verdict, next, hadvances, hconsults, hstep⟩
    · refine Or.inl ⟨cause, ?_, .draw h (by omega) hk hfirst⟩
      rcases hstep : s.step family draw settings data with ⟨verdict, next⟩
      rw [hstep] at hfault
      cases hfault
      rfl
    have hreached := h.advance hadvances
    have hlength : (models ++ [outcome]).length = models.length + 1 := by
      rw [List.length_append, List.length_singleton]
    have hrest := ih hreached (by omega)
    rw [hlength, Nat.add_assoc, Nat.add_comm 1 n] at hrest
    rw [hstep]
    cases hconsults with
    | nothing => exact hrest
    | tooFew => exact hrest
    | goOn => exact hrest
    | stop hbest henough =>
      exact Or.inr ⟨_, next, rfl, hreached, by omega, Or.inr ⟨_, hbest, henough⟩⟩
    | fault hbest henough hanswer =>
      exact Or.inl ⟨_, rfl, .policy h (by omega) hadvances hbest henough (by rw [hanswer])⟩

/-- A search that ends with a fault is broken off by that fault. -/
theorem Search.breaksOff_of_run {cause : Fault} {s : Search μ α τ σ}
    (h : (Search.start family state data).run family draw settings data settings.maxIterations =
      (some cause, s)) : Search.BreaksOff family draw settings data state cause := by
  have hreached : (Search.start family state data).Reached family draw settings data state [] :=
    Search.start_reached
  rcases hreached.run settings.maxIterations (by rw [List.length_nil, Nat.zero_add])
    with ⟨other, hother, hbreaks⟩ | ⟨found, t, hother, -⟩
  · rw [h, Option.some.injEq] at hother
    rw [hother]
    exact hbreaks
  · rw [h] at hother
    cases hother

end Projectivity.Fitting.Ransac
