import Projectivity.Homography.Reading
import Projectivity.Proofs.Fitting.Lmeds
import Projectivity.Proofs.Fitting.Trace

/-!
# What a failed fit leaves behind

A fit fails at one of three exits, whichever method it follows: on too few items before
any sample, after a search that found nothing good enough, and when the model found is
turned down in the end.  At each of them the model of the fitter is the one from before,
and the report names no item, whatever an earlier fit has reported.  Data that cannot be
read does not get that far: it leaves everything as it was.
-/

set_option autoImplicit false

namespace Projectivity.Fitting

variable {μ δ α σ : Type}

/-- A model that a failed fit has left alone, and the report of that fit: no success, no inliers and
no outliers. -/
structure Intact (before after : μ) (summary : Option (Summary δ α)) : Prop where
  model_eq : after = before
  reported : ∃ report, summary = some report ∧ report.success = false ∧ report.inliers = [] ∧
    report.outliers = []

variable [Scalar α] [Summation α] (family : Family μ δ α) (draw : Sampler σ)

namespace Ransac

variable {τ : Type} [Stopping.Policy τ]
variable (settings : Settings α) (state : State μ δ α τ σ) (data : List δ)

/-- The exits of a search for consensus that fails, and the state behind each of them. -/
inductive Failure (after : State μ δ α τ σ) : Prop where
  /-- No sample is drawn: the outcome is the same for every source of samples. -/
  | tooFew (few : data.length < family.minItems)
      (undrawn : ∀ other : Sampler σ,
        fit family other settings state data = fit family draw settings state data)
      (after_eq : after =
        { state with summary := some (.failure 0 settings.threshold .unscored) })
  /-- All iterations were run, and none of their models has enough inliers. -/
  | noConsensus (inliers : Nat) (s : Search μ α τ σ) (many : family.minItems ≤ data.length)
      (run_eq : (Search.start family state data).run family draw settings data
        settings.maxIterations = (none, s))
      (none_enough : ¬ s.HasConsensus family)
      (exhausted : s.iterations = settings.maxIterations)
      (after_eq : after = state.failed settings s inliers)
  /-- The policy turns the best model down, after the refit if there is one. -/
  | rejected (s : Search μ α τ σ) (best : Candidate μ α) (many : family.minItems ≤ data.length)
      (run_eq : (Search.start family state data).run family draw settings data
        settings.maxIterations = (none, s))
      (best_eq : s.best = some best) (enough : family.minItems ≤ best.inliers)
      (refused : Stopping.Policy.accepts s.stopping
        (marks (settle family settings data best).2) = .ok false)
      (after_eq : after =
        state.failed settings s (marks (settle family settings data best).2))

variable {family draw settings state data}

/-- A search without consensus has run all of its iterations. -/
theorem Search.iterations_eq_of_no_consensus {s : Search μ α τ σ}
    (hrun : (Search.start family state data).run family draw settings data settings.maxIterations =
      (none, s)) (hnone : ¬ s.HasConsensus family) : s.iterations = settings.maxIterations := by
  have hstart : (Search.start family state data).Reached family draw settings data state [] :=
    Search.start_reached
  rcases hstart.run settings.maxIterations (by rw [List.length_nil, Nat.zero_add]) with
    ⟨cause, hbroken, -⟩ | ⟨models, t, hend, ht, -, hall⟩
  · rw [hrun] at hbroken
    cases hbroken
  · rw [hrun, Prod.mk.injEq] at hend
    obtain ⟨-, rfl⟩ := hend
    rw [ht.count_eq, hall.resolve_right hnone, List.length_nil, Nat.zero_add]

/-- A fit that fails has come to one of the three exits. -/
theorem failure_of_answer (h : (fit family draw settings state data).answer = .ok false) :
    Failure family draw settings state data (fit family draw settings state data).state := by
  rcases fit_cases family draw settings state data with
    ⟨hfew, hfit⟩ | ⟨cause, s, -, -, hfit⟩ | ⟨s, hmany, hrun, hfit⟩
  · refine .tooFew hfew ?_ (by rw [hfit])
    intro other
    simp only [fit, if_pos hfew]
  · rw [hfit] at h
    cases h
  have henough := Nat.le_of_not_lt hmany
  rw [hfit] at h ⊢
  cases hbest : s.best with
  | none =>
    have hnone : ¬ s.HasConsensus family := by
      rintro ⟨best, hsome, -⟩
      rw [hbest] at hsome
      cases hsome
    exact .noConsensus 0 s henough hrun hnone (Search.iterations_eq_of_no_consensus hrun hnone)
      (by simp only [conclude, hbest]; rfl)
  | some best =>
    by_cases hfew : best.inliers < family.minItems
    · have hnone : ¬ s.HasConsensus family := by
        rintro ⟨other, hsome, hinliers⟩
        rw [hbest, Option.some.injEq] at hsome
        subst hsome
        exact absurd hfew (Nat.not_lt.mpr hinliers)
      exact .noConsensus best.inliers s henough hrun hnone
        (Search.iterations_eq_of_no_consensus hrun hnone)
        (by simp only [conclude, hbest, if_pos hfew]; rfl)
    · cases haccepts : Stopping.Policy.accepts s.stopping
          (marks (settle family settings data best).2) with
      | error cause =>
        simp only [conclude, hbest, if_neg hfew, haccepts] at h
        cases h
      | ok accepted =>
        cases accepted with
        | true =>
          simp only [conclude, hbest, if_neg hfew, haccepts] at h
          cases h
        | false =>
          exact .rejected s best henough hrun hbest (Nat.le_of_not_lt hfew) haccepts
            (by simp only [conclude, hbest, if_neg hfew, haccepts]; rfl)

/-- At each exit the model is the one from before and the report is empty. -/
theorem Failure.intact {after : State μ δ α τ σ}
    (h : Failure family draw settings state data after) :
    Intact state.model after.model after.summary := by
  cases h with
  | tooFew few undrawn after_eq =>
    rw [after_eq]
    exact ⟨rfl, _, rfl, rfl, rfl, rfl⟩
  | noConsensus inliers s many run_eq none_enough exhausted after_eq =>
    rw [after_eq]
    exact ⟨rfl, _, rfl, rfl, rfl, rfl⟩
  | rejected s best many run_eq best_eq enough refused after_eq =>
    rw [after_eq]
    exact ⟨rfl, _, rfl, rfl, rfl, rfl⟩

end Ransac

namespace Lmeds

variable (settings : Settings α) (state : State μ δ α σ) (data : List δ)

/-- The exits of a search for the least median that fails, and the state behind each of them. -/
inductive Failure (after : State μ δ α σ) : Prop where
  /-- No sample is drawn: the outcome is the same for every source of samples. -/
  | tooFew (few : data.length < family.minItems)
      (undrawn : ∀ other : Sampler σ,
        fit family other settings state data = fit family draw settings state data)
      (after_eq : after = state.failed state.sampler 0)
  /-- No model has a finite median. -/
  | noMedian (count : Nat) (s : Search μ α σ) (many : family.minItems ≤ data.length)
      (ends : EndsWithoutMedian family draw settings state data count s)
      (after_eq : after = state.failed s.sampler count)
  /-- The best model has too few inliers within the threshold of its median. -/
  | rejected (count : Nat) (s : Search μ α σ) (best : Candidate μ α) (median value : α)
      (many : family.minItems ≤ data.length)
      (ends : EndsWithMedian family draw settings state data count s best median value)
      (few : marks (classify family best.model data (.ofScalar value)) < family.minItems)
      (after_eq : after =
        State.rejected { state with sampler := s.sampler } count (.ofScalar value) best.median)

variable {family draw settings state data}

omit [Summation α] in
/-- A fit that fails has come to one of the three exits. -/
theorem failure_of_answer (h : (fit family draw settings state data).answer = .ok false) :
    Failure family draw settings state data (fit family draw settings state data).state := by
  rcases fit_cases family draw settings state data with ⟨hfew, hfit⟩ | ⟨hmany, hend⟩
  · refine .tooFew hfew ?_ (by rw [hfit])
    intro other
    simp only [fit, if_pos hfew]
  rcases hend with ⟨cause, next, -, hfit⟩ | ⟨count, s, hends, hfit⟩ |
    ⟨count, s, best, median, value, hends, hfit⟩
  · rw [hfit] at h
    cases h
  · exact .noMedian count s (Nat.le_of_not_lt hmany) hends (by rw [hfit])
  rw [hfit] at h ⊢
  rcases conclude_cases family settings { state with sampler := s.sampler } data count best median
    with ⟨cause, herror, -⟩ | ⟨other, hvalue, hconclude⟩
  · rw [hends.threshold_eq] at herror
    cases herror
  rw [hends.threshold_eq, Except.ok.injEq] at hvalue
  subst hvalue
  rcases hconclude with ⟨hfew, hconclude⟩ | ⟨-, hconclude⟩
  · exact .rejected count s best median value (Nat.le_of_not_lt hmany) hends hfew
      (by rw [hconclude])
  · rw [hconclude] at h
    cases h

omit [Summation α] in
/-- At each exit the model is the one from before and the report is empty. -/
theorem Failure.intact {after : State μ δ α σ}
    (h : Failure family draw settings state data after) :
    Intact state.model after.model after.summary := by
  cases h with
  | tooFew few undrawn after_eq =>
    rw [after_eq]
    exact ⟨rfl, _, rfl, rfl, rfl, rfl⟩
  | noMedian count s many ends after_eq =>
    rw [after_eq]
    exact ⟨rfl, _, rfl, rfl, rfl, rfl⟩
  | rejected count s best median value many ends few after_eq =>
    rw [after_eq]
    exact ⟨rfl, _, rfl, rfl, rfl, rfl⟩

end Lmeds

section Reading

/-- The first of a list of parts that cannot be read as a correspondence, and why. -/
def FirstFault (parts : List Value) (cause : Fault) : Prop :=
  ∃ before part rest, parts = before ++ part :: rest ∧
    (∀ p ∈ before, ∃ c, Correspondence.read p = .ok c) ∧ Correspondence.read part = .error cause

/-- If a part cannot be read, there is a first such part. -/
theorem exists_firstFault {parts : List Value}
    (h : ∃ part ∈ parts, ∃ cause, Correspondence.read part = .error cause) :
    ∃ cause, FirstFault parts cause := by
  induction parts with
  | nil =>
    obtain ⟨part, hpart, -⟩ := h
    cases hpart
  | cons part rest ih =>
    cases hread : Correspondence.read part with
    | error cause =>
      have hnone : ∀ p ∈ ([] : List Value), ∃ c, Correspondence.read p = .ok c := by
        intro p hp
        cases hp
      exact ⟨cause, [], part, rest, rfl, hnone, hread⟩
    | ok c =>
      obtain ⟨bad, hbad, cause, hcause⟩ := h
      have hrest : bad ∈ rest := by
        rcases List.mem_cons.mp hbad with rfl | hrest
        · rw [hread] at hcause
          cases hcause
        · exact hrest
      obtain ⟨first, before, other, after, hparts, hbefore, hother⟩ :=
        ih ⟨bad, hrest, cause, hcause⟩
      refine ⟨first, part :: before, other, after, by rw [hparts]; rfl, ?_, hother⟩
      intro p hp
      rcases List.mem_cons.mp hp with rfl | hp
      · exact ⟨c, hread⟩
      · exact hbefore p hp

/-- Correspondences are read in order, and the first that cannot be read ends it. -/
theorem readAll_of_firstFault {v : Value} {parts : List Value} {cause : Fault}
    (hv : v.parts? = some parts) (h : FirstFault parts cause) :
    Correspondence.readAll v = .error cause := by
  obtain ⟨before, part, rest, rfl, hbefore, hpart⟩ := h
  have hread : (before ++ part :: rest).mapM Correspondence.read = .error cause := by
    clear hv
    induction before with
    | nil =>
      rw [List.nil_append, List.mapM_cons, hpart]
      rfl
    | cons p before ih =>
      obtain ⟨c, hc⟩ := hbefore p List.mem_cons_self
      rw [List.cons_append, List.mapM_cons, hc,
        ih fun q hq => hbefore q (List.mem_cons_of_mem p hq)]
      rfl
  unfold Correspondence.readAll
  rw [hv]
  exact hread

end Reading

/-- Both methods leave the model alone and report nothing at each of their exits, and data that
cannot be read leaves a fitter or an estimator entirely as it was. -/
theorem failure_leaves_intact [Spectral Float] :
    (∀ {τ : Type} [Stopping.Policy τ] (settings : Ransac.Settings α)
        (state : Ransac.State μ δ α τ σ) (data : List δ),
      (Ransac.fit family draw settings state data).answer = .ok false →
        Intact state.model (Ransac.fit family draw settings state data).state.model
            (Ransac.fit family draw settings state data).state.summary ∧
          Ransac.Failure family draw settings state data
            (Ransac.fit family draw settings state data).state) ∧
      (∀ (settings : Lmeds.Settings α) (state : Lmeds.State μ δ α σ) (data : List δ),
        (Lmeds.fit family draw settings state data).answer = .ok false →
          Intact state.model (Lmeds.fit family draw settings state data).state.model
              (Lmeds.fit family draw settings state data).state.summary ∧
            Lmeds.Failure family draw settings state data
              (Lmeds.fit family draw settings state data).state) ∧
      ∀ (v : Value) (parts : List Value), v.parts? = some parts →
        (∃ part ∈ parts, ∃ cause, Correspondence.read part = .error cause) →
        ∃ cause, FirstFault parts cause ∧
          (∀ {ν σ : Type} (family : Family ν (Correspondence Float) Float) (draw : Sampler σ)
              (f : Fitter ν (Correspondence Float) Float σ),
            f.fitRead family draw v = ⟨f, .error cause, []⟩) ∧
          ∀ {σ : Type} (draw : Sampler σ) (e : Estimator Float σ),
            e.fitRead draw v = ⟨e, .error cause, []⟩ := by
  refine ⟨?_, ?_, ?_⟩
  · intro τ policy settings state data h
    have hfailure := Ransac.failure_of_answer h
    exact ⟨hfailure.intact, hfailure⟩
  · intro settings state data h
    have hfailure := Lmeds.failure_of_answer h
    exact ⟨hfailure.intact, hfailure⟩
  · intro v parts hv hbad
    obtain ⟨cause, hfirst⟩ := exists_firstFault hbad
    have hread := readAll_of_firstFault hv hfirst
    refine ⟨cause, hfirst, ?_, ?_⟩
    · intro ν σ family draw f
      simp only [Fitter.fitRead, onRead, hread]
    · intro σ draw e
      simp only [Estimator.fitRead, onRead, hread]

/-- Numbers that agree with themselves alone, two of which have to be drawn. -/
def loneNumbers : Family Nat Nat Float :=
  ⟨2, fun _ sample => sample.head?, fun m d => if m = d then .zero else .infinite⟩

/-- Draws of consecutive positions. -/
def consecutive : Sampler Nat := fun k available size =>
  (.ok ((List.range size).map fun i => (k + i) % available), k + 1)

/-- The report of an earlier success. -/
def earlierSuccess : Summary Nat Float := ⟨true, [4, 4], [5], 1, .zero, .count 2⟩

/-- Two numbers without consensus, too few numbers, and a number in place of a pair, after an
earlier success. -/
theorem failure_leaves_intact_after_success [Spectral Float] :
    let consensus := Ransac.fit loneNumbers consecutive ⟨.zero, 3, 2, true⟩
      ⟨9, Stopping.ofRule (α := Float) (.count 2), 1, some earlierSuccess⟩ [4, 5]
    let median := Lmeds.fit loneNumbers consecutive ⟨0, 0, 0, 0, 2, true⟩
      ⟨9, 1, some earlierSuccess⟩ [4]
    (consensus.answer = .ok false ∧ Intact 9 consensus.state.model consensus.state.summary) ∧
      (median.answer = .ok false ∧ Intact 9 median.state.model median.state.summary) ∧
      ∃ cause, ∀ (draw : Sampler Nat) (e : Estimator Float Nat),
        e.fitRead draw (.list [.int 3]) = ⟨e, .error cause, []⟩ := by
  obtain ⟨hransac, hlmeds, hread⟩ := failure_leaves_intact loneNumbers consecutive
  obtain ⟨cause, -, -, he⟩ := hread (.list [.int 3]) [.int 3] rfl
    ⟨.int 3, List.mem_singleton_self _, _, rfl⟩
  have hanswer : (Ransac.fit loneNumbers consecutive ⟨.zero, 3, 2, true⟩
      ⟨9, Stopping.ofRule (α := Float) (.count 2), 1, some earlierSuccess⟩ [4, 5]).answer =
        .ok false :=
    Result.toOption_eq_some.mp (by decide +kernel)
  have hconsensus := hransac ⟨.zero, 3, 2, true⟩
    ⟨9, Stopping.ofRule (α := Float) (.count 2), 1, some earlierSuccess⟩ [4, 5] hanswer
  have hmedian := hlmeds ⟨0, 0, 0, 0, 2, true⟩ ⟨9, 1, some earlierSuccess⟩ [4] rfl
  exact ⟨⟨hanswer, hconsensus.1⟩, ⟨rfl, hmedian.1⟩, cause, fun draw e => he draw e⟩

end Projectivity.Fitting
