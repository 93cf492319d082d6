import Mathlib.Data.List.Induction
import Projectivity.Proofs.Fitting.Iteration
import Projectivity.Proofs.Fitting.Lmeds
import Projectivity.Proofs.Scalar.Double

/-!
# The least median

A search for the least median goes through all of its iterations and keeps the first
model with the least median of those that they yield.  The threshold of a fit belongs
to this median, and the partition that it reports to the model that it leaves behind.
-/

set_option autoImplicit false

namespace Projectivity.Fitting.Lmeds

variable {μ δ α σ : Type} [Scalar α]

section Least

variable (family : Family μ δ α) (data : List δ)

/-- A model and the median of its residuals, which can be compared with other ones. -/
def HasMedian (m : μ) (d : Extended α) : Prop :=
  Extended.median? (data.map (family.residual m)) = some d ∧ d.isOrdered = true

/-- The least median of the models that iterations found, with the earliest model that has it. -/
structure Least (models : List (Option μ)) (m : μ) (d : Extended α) : Prop where
  hasMedian : HasMedian family data m d
  least : ∀ other e, some other ∈ models → HasMedian family data other e → d.le e = true
  earliest : ∃ i : Nat, models[i]? = some (some m) ∧ ∀ j < i, ∀ other e,
    models[j]? = some (some other) → HasMedian family data other e → d.lt e = true

/-- The median that a further model has to be below. -/
def bound (best : Option (Candidate μ α)) : Extended α :=
  match best with
  | some b => b.median
  | none => .infinite

/-- The best candidate after an iteration that yields a model or nothing. -/
def keep (best : Option (Candidate μ α)) : Option μ → Option (Candidate μ α)
  | some m => match Extended.median? (data.map (family.residual m)) with
    | some median => if median.lt (bound best) then some ⟨m, median⟩ else best
    | none => best
  | none => best

/-- The best candidate after a number of iterations. -/
def kept (models : List (Option μ)) : Option (Candidate μ α) :=
  models.foldl (keep family data) none

/-- What a search keeps of the models that its iterations found: the first one with the least
median, if that is below infinity. -/
structure Selected (models : List (Option μ)) (best : Option (Candidate μ α)) : Prop where
  infinite : best = none → ∀ m d, some m ∈ models → HasMedian family data m d → d = .infinite
  least : ∀ b, best = some b → Least family data models b.model b.median ∧
    b.median.lt .infinite = true

variable {family data} {models : List (Option μ)} {best : Option (Candidate μ α)}

/-- Without iterations nothing is kept. -/
theorem Selected.start : Selected family data ([] : List (Option μ)) none := by
  refine ⟨fun _ m d hm => absurd hm List.not_mem_nil, ?_⟩
  intro b hb
  cases hb

/-- The least median is still the least if a further model does not have a smaller one. -/
theorem Least.append {m : μ} {d : Extended α} (h : Least family data models m d)
    (outcome : Option μ)
    (hnew : ∀ other e, outcome = some other → HasMedian family data other e → d.le e = true) :
    Least family data (models ++ [outcome]) m d := by
  obtain ⟨i, hfound, hearlier⟩ := h.earliest
  obtain ⟨hi, -⟩ := List.getElem?_eq_some_iff.mp hfound
  refine ⟨h.hasMedian, ?_, i, ?_, ?_⟩
  · intro other e hother he
    rcases List.mem_append.mp hother with hold | hlast
    · exact h.least other e hold he
    · exact hnew other e (List.mem_singleton.mp hlast).symm he
  · rw [List.getElem?_append_left hi]
    exact hfound
  · intro j hj other e hother he
    rw [List.getElem?_append_left (Nat.lt_trans hj hi)] at hother
    exact hearlier j hj other e hother he

/-- An iteration that yields nothing that can be compared and is below the best median does not
change what is selected. -/
theorem Selected.append (h : Selected family data models best) (outcome : Option μ)
    (hnone : best = none → ∀ m d, outcome = some m → HasMedian family data m d → d = .infinite)
    (hsome : ∀ b, best = some b → ∀ m d, outcome = some m → HasMedian family data m d →
      b.median.le d = true) :
    Selected family data (models ++ [outcome]) best := by
  refine ⟨?_, ?_⟩
  · intro hbest m d hm hd
    rcases List.mem_append.mp hm with hold | hlast
    · exact h.infinite hbest m d hold hd
    · exact hnone hbest m d (List.mem_singleton.mp hlast).symm hd
  · intro b hb
    exact ⟨(h.least b hb).1.append outcome (hsome b hb), (h.least b hb).2⟩

/-- A model has one median only. -/
theorem HasMedian.unique {m : μ} {d e : Extended α} (hd : HasMedian family data m d)
    (he : HasMedian family data m e) : d = e :=
  Option.some.inj (hd.1.symm.trans he.1)

/-- A value that can be compared and is not below infinity is infinite. -/
theorem eq_infinite_of_not_lt {d : Extended α} (hd : d.isOrdered = true)
    (h : ¬ d.lt .infinite = true) : d = .infinite := by
  cases d with
  | infinite => rfl
  | finite a => exact absurd hd h

variable [Scalar.Averaged α]

/-- A model whose median is below the best one so far has the least median. -/
theorem Selected.least_of_lt (h : Selected family data models best) {m : μ} {d : Extended α}
    (hd : Extended.median? (data.map (family.residual m)) = some d)
    (hlt : d.lt (bound best) = true) :
    Least family data (models ++ [some m]) m d ∧ d.lt .infinite = true := by
  have hordered := Extended.isOrdered_of_lt hlt
  -- The median is strictly below all medians before it.
  have hbelow : ∀ other e, some other ∈ models → HasMedian family data other e →
      d.lt e = true := by
    intro other e hother he
    cases best with
    | none =>
      rw [h.infinite rfl other e hother he]
      exact hlt
    | some b =>
      exact Extended.lt_of_lt_of_le hordered hlt ((h.least b rfl).1.least other e hother he)
  have hinfinite : d.lt .infinite = true := by
    cases best with
    | none => exact hlt
    | some b =>
      exact Extended.lt_of_lt_of_le hordered hlt (Extended.le_of_lt
        (Extended.isOrdered_of_lt (h.least b rfl).2) rfl (h.least b rfl).2)
  refine ⟨⟨⟨hd, hordered⟩, ?_, models.length, List.getElem?_concat_length, ?_⟩, hinfinite⟩
  · intro other e hother he
    rcases List.mem_append.mp hother with hold | hlast
    · exact Extended.le_of_lt hordered he.2 (hbelow other e hold he)
    · cases List.mem_singleton.mp hlast
      rw [← HasMedian.unique ⟨hd, hordered⟩ he]
      rcases Extended.le_total hordered hordered with hle | hle
      · exact hle
      · exact hle
  · intro j hj other e hother he
    rw [List.getElem?_append_left hj] at hother
    exact hbelow other e (List.mem_of_getElem? hother) he

/-- There is only one first model with the least median. -/
theorem Least.unique {m other : μ} {d e : Extended α} (h : Least family data models m d)
    (hother : Least family data models other e) : m = other ∧ d = e := by
  obtain ⟨i, hi, hbefore⟩ := h.earliest
  obtain ⟨j, hj, hbeforeOther⟩ := hother.earliest
  have hd := h.hasMedian.2
  have he := hother.hasMedian.2
  rcases Nat.lt_trichotomy i j with hlt | rfl | hlt
  · have hless := hbeforeOther i hlt m d hi h.hasMedian
    exact absurd (h.least other e (List.mem_of_getElem? hj) hother.hasMedian)
      ((Extended.lt_iff_not_le he hd).mp hless)
  · rw [hi, Option.some.injEq, Option.some.injEq] at hj
    subst hj
    exact ⟨rfl, h.hasMedian.unique hother.hasMedian⟩
  · have hless := hbefore j hlt other e hj hother.hasMedian
    exact absurd (hother.least m d (List.mem_of_getElem? hi) h.hasMedian)
      ((Extended.lt_iff_not_le hd he).mp hless)

/-- What is kept of a further model is selected. -/
theorem Selected.append_some (h : Selected family data models best) (m : μ) :
    Selected family data (models ++ [some m]) (keep family data best (some m)) := by
  cases hmedian : Extended.median? (data.map (family.residual m)) with
  | none =>
    simp only [keep, hmedian]
    have hnone : ∀ d, ¬ HasMedian family data m d := fun d hd =>
      nomatch hmedian.symm.trans hd.1
    refine h.append (some m) ?_ ?_
    · rintro - other d ⟨⟩ hd
      exact absurd hd (hnone d)
    · rintro b - other d ⟨⟩ hd
      exact absurd hd (hnone d)
  | some d =>
    simp only [keep, hmedian]
    by_cases hlt : d.lt (bound best) = true
    · rw [if_pos hlt]
      refine ⟨fun hnone => absurd hnone (Option.some_ne_none _), ?_⟩
      rintro b ⟨⟩
      exact h.least_of_lt hmedian hlt
    · rw [if_neg hlt]
      have hsame : ∀ e, HasMedian family data m e → e = d := fun e he =>
        Option.some.inj (he.1.symm.trans hmedian)
      refine h.append (some m) ?_ ?_
      · rintro rfl other e ⟨⟩ he
        obtain rfl := hsame e he
        exact eq_infinite_of_not_lt he.2 hlt
      · rintro b rfl other e ⟨⟩ he
        obtain rfl := hsame e he
        exact Extended.le_of_not_lt he.2 (h.least b rfl).1.hasMedian.2 hlt

/-- What is kept of the models of iterations is the first one with the least median.  The induction
is on the iterations, the last one being the outer one. -/
theorem kept_selected (models : List (Option μ)) :
    Selected family data models (kept family data models) := by
  induction models using List.reverseRecOn with
  | nil => exact Selected.start
  | append_singleton models outcome ih =>
    unfold kept at ih ⊢
    rw [List.foldl_append, List.foldl_cons, List.foldl_nil]
    cases outcome with
    | none => exact ih.append none (by simp) (by simp)
    | some m => exact ih.append_some m

end Least

section Trace

variable (family : Family μ δ α) (draw : Sampler σ) (settings : Settings α)
variable (state : State μ δ α σ) (data : List δ)

/-- A search has gone through iterations that yielded the given models, beginning in the state of a
fitter. -/
structure Search.Reached (models : List (Option μ)) (s : Search μ α σ) : Prop where
  iterations : Iterations draw family data settings.sampleTries state.model state.sampler models
    s.hypothesis s.sampler
  best_eq : s.best = kept family data models

/-- A draw of an iteration fails. -/
structure Search.FailsOn (models : List (Option μ)) (s : Search μ α σ) (cause : Fault) :
    Prop where
  reached : s.Reached family draw settings state data models
  failed : ∃ k < settings.sampleTries, FirstFailed draw family data s.hypothesis s.sampler k cause

variable {family draw settings state data} {models : List (Option μ)} {s : Search μ α σ}

/-- A search has gone through no iterations at its start. -/
theorem Search.start_reached :
    (Search.start state).Reached family draw settings state data [] :=
  ⟨.start, rfl⟩

/-- A search that considers a model keeps the better candidate. -/
theorem Search.consider_eq (s : Search μ α σ) (m : μ) : s.consider family data m =
    { s with hypothesis := m, best := keep family data s.best (some m) } := by
  cases hmedian : Extended.median? (data.map (family.residual m)) with
  | none => simp only [consider, keep, hmedian]
  | some d =>
    simp only [consider, keep, hmedian]
    change (if d.lt (bound s.best) = true then _ else _) = _
    by_cases hlt : d.lt (bound s.best) = true
    · rw [if_pos hlt, if_pos hlt]
    · rw [if_neg hlt, if_neg hlt]

/-- An iteration is broken off by a draw, or is one more that the search has gone through. -/
theorem Search.Reached.step (h : s.Reached family draw settings state data models) :
    (∃ cause next, s.step family draw settings data = (some cause, next) ∧
        s.FailsOn family draw settings state data models cause) ∨
      ∃ outcome next, s.step family draw settings data = (none, next) ∧
        next.Reached family draw settings state data (models ++ [outcome]) := by
  unfold Search.step
  rcases estimateFromSample_cases draw family data settings.sampleTries s.hypothesis s.sampler with
    ⟨outcome, sampler, hiteration, hestimate⟩ | ⟨k, hk, cause, hfirst, hestimate⟩
  · have hchain := Iterations.next h.iterations hiteration
    have hkept : kept family data (models ++ [outcome]) = keep family data s.best outcome := by
      rw [h.best_eq, kept, kept, List.foldl_append, List.foldl_cons, List.foldl_nil]
    refine Or.inr ⟨outcome, ?_⟩
    simp only [hestimate]
    cases outcome with
    | none => exact ⟨_, rfl, hchain, hkept.symm⟩
    | some m =>
      simp only [Search.consider_eq]
      exact ⟨_, rfl, hchain, hkept.symm⟩
  · refine Or.inl ⟨cause, ?_⟩
    rcases hsample : estimateFromSample family draw data s.hypothesis settings.sampleTries
      s.sampler with ⟨answer, sampler⟩
    rw [hsample] at hestimate
    cases hestimate
    exact ⟨_, rfl, h, k, hk, hfirst⟩

/-- An iteration that runs to its end is one step of a search. -/
theorem Search.step_of_iteration {outcome : Option μ} {sampler : σ}
    (h : Iteration draw family data settings.sampleTries s.hypothesis s.sampler outcome sampler) :
    s.step family draw settings data =
      (none, ⟨sampler, outcome.getD s.hypothesis, keep family data s.best outcome⟩) := by
  unfold Search.step
  simp only [h.estimateFromSample_eq]
  cases outcome with
  | none => rfl
  | some m => simp only [Search.consider_eq, Option.getD_some]

/-- A search begins with the iterations that follow each other from its start, and goes on from
what is kept of their models.  The induction is on these iterations. -/
theorem Search.run_of_iterations {last : μ} {sampler : σ}
    (h : Iterations draw family data settings.sampleTries state.model state.sampler models last
      sampler) (n : Nat) :
    (Search.start state).run family draw settings data (models.length + n) =
      Search.run family draw settings data n ⟨sampler, last, kept family data models⟩ := by
  induction h generalizing n with
  | start => rw [List.length_nil, Nat.zero_add]; rfl
  | @next models last t outcome u _ iteration ih =>
    have hstep : Search.step family draw settings data ⟨t, last, kept family data models⟩ =
        (none, ⟨u, outcome.getD last, keep family data (kept family data models) outcome⟩) :=
      Search.step_of_iteration iteration
    rw [List.length_append, List.length_singleton, Nat.add_assoc, Nat.add_comm 1 n, ih, Search.run,
      hstep, kept, kept, List.foldl_append, List.foldl_cons, List.foldl_nil]

/-- A draw that fails is what the step of a search answers with. -/
theorem Search.FailsOn.step {cause : Fault}
    (h : s.FailsOn family draw settings state data models cause) :
    ∃ next, s.step family draw settings data = (some cause, next) := by
  obtain ⟨k, hk, hfirst⟩ := h.failed
  have hfault := estimateFromSample_eq_error settings.sampleTries hfirst hk
  unfold Search.step
  rcases hsample : estimateFromSample family draw data s.hypothesis settings.sampleTries s.sampler
    with ⟨answer, sampler⟩
  rw [hsample] at hfault
  cases hfault
  exact ⟨_, rfl⟩

/-- A draw that fails before the last iteration breaks a search off. -/
theorem Search.FailsOn.run {cause : Fault} {count : Nat}
    (h : s.FailsOn family draw settings state data models cause) (hbegun : models.length < count) :
    ∃ next, (Search.start state).run family draw settings data count = (some cause, next) := by
  obtain ⟨n, rfl⟩ := Nat.exists_eq_add_of_lt hbegun
  obtain ⟨next, hstep⟩ := h.step
  have hs : (⟨s.sampler, s.hypothesis, kept family data models⟩ : Search μ α σ) = s := by
    rw [← h.reached.best_eq]
  refine ⟨next, ?_⟩
  rw [Nat.add_assoc, Search.run_of_iterations h.reached.iterations, hs, Search.run, hstep]

/-- A search is broken off by a draw, or goes through all of its iterations.  The induction is on
the iterations that are left. -/
theorem Search.Reached.run (n : Nat) (h : s.Reached family draw settings state data models) :
    (∃ cause next, s.run family draw settings data n = (some cause, next) ∧
        ∃ found t, found.length < models.length + n ∧
          Search.FailsOn family draw settings state data found t cause) ∨
      ∃ found t, s.run family draw settings data n = (none, t) ∧
        found.length = models.length + n ∧ t.Reached family draw settings state data found := by
  induction n generalizing s models with
  | zero => exact Or.inr ⟨models, s, rfl, rfl, h⟩
  | succ n ih =>
    rw [Search.run]
    rcases h.step with ⟨cause, next, hstep, hfails⟩ | ⟨outcome, next, hstep, hreached⟩
    · rw [hstep]
      exact Or.inl ⟨cause, next, rfl, models, s, by omega, hfails⟩
    · have hrest := ih hreached
      rw [List.length_append, List.length_singleton, Nat.add_assoc, Nat.add_comm 1 n] at hrest
      rw [hstep]
      exact hrest

end Trace

section Report

variable (family : Family μ δ α) (draw : Sampler σ) (settings : Settings α)
variable (state : State μ δ α σ) (data : List δ)

/-- What breaks a fit on enough items off: there is no number of iterations, or a draw of one of
them fails, or the least median is finite and its threshold is beyond all numbers. -/
inductive Interrupted (cause : Fault) : Prop where
  | iterations (failed : iterations settings family.minItems = .error cause)
  | draw {count : Nat} {models : List (Option μ)} {s : Search μ α σ}
      (count_eq : iterations settings family.minItems = .ok count)
      (begun : models.length < count)
      (fails : s.FailsOn family draw settings state data models cause)
  | threshold {models : List (Option μ)} {last m : μ} {sampler : σ} {median : α}
      (count_eq : iterations settings family.minItems = .ok models.length)
      (chain : Iterations draw family data settings.sampleTries state.model state.sampler models
        last sampler)
      (least : Least family data models m (.finite median))
      (finite : Scalar.isFinite median = true)
      (failed : robustThreshold settings median data.length family.minItems = .error cause)

/-- The first model with the least median, which is a number, and the threshold that belongs to
it. -/
structure Winner (models : List (Option μ)) (m : μ) (median value : α) : Prop where
  least : Least family data models m (.finite median)
  finite : Scalar.isFinite median = true
  threshold_eq : robustThreshold settings median data.length family.minItems = .ok value

/-- The winner classifies too few items as inliers. -/
def TooFew (models : List (Option μ)) : Prop :=
  ∃ m median value, Winner family settings data models m median value ∧
    (data.filter (agrees family (.ofScalar value) m)).length < family.minItems

/-- No model that iterations found has a finite median. -/
def NoneFinite (models : List (Option μ)) : Prop :=
  ∀ m d, some m ∈ models → Extended.median? (data.map (family.residual m)) = some d →
    d.isFinite = false

/-- The report of a success: the threshold and the score belong to the winner, and the partition to
the model that the fitter now has. -/
def ReportsWinner (models : List (Option μ)) (next : State μ δ α σ) : Prop :=
  ∃ m median value, Winner family settings data models m median value ∧
    next.model = (settle family settings data (.ofScalar value) ⟨m, .finite median⟩).1 ∧
    next.summary = some ⟨true, data.filter (agrees family (.ofScalar value) next.model),
      data.filter fun d => !agrees family (.ofScalar value) next.model d, models.length,
      .ofScalar value, .median (.finite median)⟩ ∧
    family.minItems ≤ (data.filter (agrees family (.ofScalar value) next.model)).length

/-- The end of a fit whose iterations yielded the given models. -/
structure Concludes (models : List (Option μ)) (outcome : Outcome (State μ δ α σ) Notice) :
    Prop where
  answered : ∃ found, outcome.answer = .ok found
  counted : ∃ summary, outcome.state.summary = some summary ∧ summary.iterations = models.length
  success : outcome.answer = .ok true → ReportsWinner family settings data models outcome.state
  failure_iff : outcome.answer = .ok false ↔
    (∀ m d, Least family data models m d → d.isFinite = false) ∨
      TooFew family settings data models

variable {family draw settings state data} {models : List (Option μ)} {s : Search μ α σ}

/-- A run that is not broken off has gone through as many iterations as it counts. -/
theorem Search.reached_of_run {count : Nat}
    (hrun : (Search.start state).run family draw settings data count = (none, s)) :
    ∃ models : List (Option μ), models.length = count ∧
      s.Reached family draw settings state data models := by
  have hstart : (Search.start state).Reached family draw settings state data [] :=
    Search.start_reached
  rcases hstart.run count with ⟨cause, next, hother, -⟩ | ⟨found, t, hother, hlength, hreached⟩
  · rw [hrun] at hother
    cases hother
  · rw [hrun, Prod.mk.injEq] at hother
    obtain ⟨-, rfl⟩ := hother
    rw [List.length_nil, Nat.zero_add] at hlength
    exact ⟨found, hlength, hreached⟩

/-- A success reports the winner and the partition by the model that it is settled to. -/
theorem Winner.reports {m : μ} {median value : α}
    (h : Winner family settings data models m median value)
    (hmany : ¬ marks (classify family m data (.ofScalar value)) < family.minItems) :
    ReportsWinner family settings data models (state.accepted data models.length
      (.ofScalar value) (.finite median)
      (settle family settings data (.ofScalar value) ⟨m, .finite median⟩)) := by
  have hsupports := settle_supports family settings data (.ofScalar value) ⟨m, .finite median⟩ hmany
  refine ⟨m, median, value, h, rfl, ?_, ?_⟩
  · simp only [State.accepted, hsupports.partition_eq]
  · have henough := hsupports.enough
    rw [hsupports.marks_eq] at henough
    exact henough

variable [Scalar.Averaged α]

/-- What a search has reached is what it keeps of its models. -/
theorem Search.Reached.selected (h : s.Reached family draw settings state data models) :
    Selected family data models s.best := by
  rw [h.best_eq]
  exact kept_selected models

/-- The best candidate of a search with a finite median is the winner. -/
theorem EndsWithMedian.winner {count : Nat} {best : Candidate μ α} {median value : α}
    (h : EndsWithMedian family draw settings state data count s best median value)
    (hreached : s.Reached family draw settings state data models) :
    Winner family settings data models best.model median value := by
  have hleast := (hreached.selected.least best h.best_eq).1
  rw [h.median_eq] at hleast
  exact ⟨hleast, h.finite, h.threshold_eq⟩

/-- After a search without a finite median there is no finite least median. -/
theorem EndsWithoutMedian.isFinite_eq_false {count : Nat}
    (h : EndsWithoutMedian family draw settings state data count s)
    (hreached : s.Reached family draw settings state data models) {m : μ} {d : Extended α}
    (hleast : Least family data models m d) : d.isFinite = false := by
  have hselected := hreached.selected
  obtain ⟨i, hi, -⟩ := hleast.earliest
  cases hbest : s.best with
  | none =>
    rw [hselected.infinite hbest m d (List.mem_of_getElem? hi) hleast.hasMedian]
    rfl
  | some best =>
    rw [(hleast.unique (hselected.least best hbest).1).2]
    cases hmedian : best.median with
    | infinite => rfl
    | finite median => exact h.infinite best median hbest hmedian

/-- A fit whose search ended with a finite median concludes with its winner. -/
theorem EndsWithMedian.concludes {best : Candidate μ α} {median value : α}
    (h : EndsWithMedian family draw settings state data models.length s best median value)
    (hreached : s.Reached family draw settings state data models) :
    Concludes family settings data models (conclude family settings
      { state with sampler := s.sampler } data models.length best median) := by
  have hwinner := h.winner hreached
  obtain ⟨m, d⟩ := best
  obtain rfl : d = .finite median := h.median_eq
  have hmarks : marks (classify family m data (.ofScalar value)) =
      (data.filter (agrees family (.ofScalar value) m)).length := by
    rw [classify_eq_map, marks_map]
  rcases conclude_cases family settings { state with sampler := s.sampler } data models.length
    ⟨m, .finite median⟩ median with ⟨cause, hcause, -⟩ | ⟨other, hother, hend⟩
  · rw [h.threshold_eq] at hcause
    cases hcause
  rw [h.threshold_eq, Except.ok.injEq] at hother
  subst hother
  rcases hend with ⟨hfew, hend⟩ | ⟨hmany, hend⟩
  · rw [hend]
    refine ⟨⟨false, rfl⟩, ⟨_, rfl, rfl⟩, fun hanswer => ?_, iff_of_true rfl (Or.inr ?_)⟩
    · cases hanswer
    · exact ⟨m, median, value, hwinner, hmarks ▸ hfew⟩
  · rw [hend]
    refine ⟨⟨true, rfl⟩, ⟨_, rfl, rfl⟩, fun _ => hwinner.reports hmany, iff_of_false (by simp) ?_⟩
    rintro (hnone | ⟨other, otherMedian, otherValue, hother, hfew⟩)
    · exact Bool.false_ne_true ((hnone m _ hwinner.least).symm.trans hwinner.finite)
    · obtain ⟨rfl, hsame⟩ := hwinner.least.unique hother.least
      obtain rfl := Extended.finite.inj hsame
      obtain rfl := Except.ok.inj (hwinner.threshold_eq.symm.trans hother.threshold_eq)
      exact hmany (hmarks ▸ hfew)

/-- A fit whose search ended without a finite median concludes with a failure. -/
theorem EndsWithoutMedian.concludes
    (h : EndsWithoutMedian family draw settings state data models.length s)
    (hreached : s.Reached family draw settings state data models) :
    Concludes family settings data models
      ⟨state.failed s.sampler models.length, .ok false, []⟩ := by
  refine ⟨⟨false, rfl⟩, ⟨_, rfl, rfl⟩, fun hanswer => ?_, iff_of_true rfl (Or.inl ?_)⟩
  · cases hanswer
  · exact fun m d hleast => h.isFinite_eq_false hreached hleast

/-- What breaks a fit off is a fault of one of its parts. -/
theorem BreaksOff.interrupted {cause : Fault}
    (h : BreaksOff family draw settings state data cause) :
    Interrupted family draw settings state data cause := by
  cases h with
  | iterations hcount => exact .iterations hcount
  | search hcount hrun =>
    have hstart : (Search.start state).Reached family draw settings state data [] :=
      Search.start_reached
    rcases hstart.run _ with ⟨other, next, hother, found, t, hbegun, hfails⟩ |
      ⟨found, t, hother, -⟩
    · rw [hrun, Prod.mk.injEq, Option.some.injEq] at hother
      rw [List.length_nil, Nat.zero_add] at hbegun
      exact .draw hcount hbegun (hother.1 ▸ hfails)
    · rw [hrun] at hother
      cases hother
  | threshold hcount hrun hbest hmedian hfinite hvalue =>
    obtain ⟨models, rfl, hreached⟩ := Search.reached_of_run hrun
    have hleast := (hreached.selected.least _ hbest).1
    rw [hmedian] at hleast
    exact .threshold hcount hreached.iterations hleast hfinite hvalue

/-- A fault of one of the parts of a fit breaks it off. -/
theorem Interrupted.breaksOff {cause : Fault}
    (h : Interrupted family draw settings state data cause) :
    BreaksOff family draw settings state data cause := by
  cases h with
  | iterations failed => exact .iterations failed
  | draw count_eq begun fails =>
    obtain ⟨next, hrun⟩ := fails.run begun
    exact .search count_eq hrun
  | @threshold models last m sampler median count_eq chain least finite failed =>
    have hrun := Search.run_of_iterations chain 0
    have hselected : Selected family data models (kept family data models) := kept_selected models
    obtain ⟨i, hi, -⟩ := least.earliest
    cases hkept : kept family data models with
    | none =>
      cases hselected.infinite hkept m _ (List.mem_of_getElem? hi) least.hasMedian
    | some best =>
      obtain ⟨-, hmedian⟩ := least.unique (hselected.least best hkept).1
      rw [hkept] at hrun
      exact .threshold count_eq hrun rfl hmedian.symm finite failed

/-- Without negative residuals, the least median is finite exactly if some median is. -/
theorem forall_least_iff_noneFinite
    (hnonneg : ∀ m, ∀ d ∈ data, Extended.zero.le (family.residual m d) = true) :
    (∀ m d, Least family data models m d → d.isFinite = false) ↔ NoneFinite family data models := by
  have hzero : ∀ m d, Extended.median? (data.map (family.residual m)) = some d →
      Extended.zero.le d = true := by
    intro m d hd
    refine Extended.median_nonneg ?_ hd
    intro r hr
    obtain ⟨item, hitem, rfl⟩ := List.mem_map.mp hr
    exact hnonneg m item hitem
  constructor
  · intro hleast m d hm hd
    have hmedian : HasMedian family data m d := ⟨hd, (Extended.isOrdered_of_le (hzero m d hd)).2⟩
    have hselected : Selected family data models (kept family data models) := kept_selected models
    cases hkept : kept family data models with
    | none =>
      rw [hselected.infinite hkept m d hm hmedian]
      rfl
    | some b =>
      have hb := (hselected.least b hkept).1
      refine Bool.eq_false_iff.mpr fun hfinite => ?_
      have hbelow := Extended.isFinite_of_le (hzero b.model b.median hb.hasMedian.1)
        (hb.least m d hm hmedian) hfinite
      rw [hleast b.model b.median hb] at hbelow
      cases hbelow
  · intro hnone m d hleast
    obtain ⟨i, hi, -⟩ := hleast.earliest
    exact hnone m d (List.mem_of_getElem? hi) hleast.hasMedian.1

variable (family draw settings state data)

/-- A fit that goes through exactly the number of iterations that its settings ask for, each of them
with a median if there are items, and then succeeds with the first model with the least median and
the threshold that belongs to this median, or fails because that median is not finite or because
its model has too few inliers. -/
structure Completes (models : List (Option μ)) (last : μ) (sampler : σ) : Prop where
  count_eq : iterations settings family.minItems = .ok models.length
  chain : Iterations draw family data settings.sampleTries state.model state.sampler models last
    sampler
  exists_median : data ≠ [] → ∀ m, ∃ d, Extended.median? (data.map (family.residual m)) = some d
  concludes : Concludes family settings data models (fit family draw settings state data)
  failure_iff : (∀ m, ∀ d ∈ data, Extended.zero.le (family.residual m d) = true) →
    ((fit family draw settings state data).answer = .ok false ↔
      NoneFinite family data models ∨ TooFew family settings data models)

variable {family draw settings state data}

/-- A fit that completes is not broken off. -/
theorem Completes.not_interrupted {last : μ} {sampler : σ}
    (h : Completes family draw settings state data models last sampler)
    (hmany : family.minItems ≤ data.length) (cause : Fault) :
    ¬ Interrupted family draw settings state data cause := by
  intro hinterrupted
  obtain ⟨found, hfound⟩ := h.concludes.answered
  rw [fit_answer_of_breaksOff family draw settings state data (Nat.not_lt.mpr hmany)
    hinterrupted.breaksOff] at hfound
  cases hfound

variable (family draw settings state data)

/-- A fit on enough items completes or is broken off. -/
theorem completes_or_interrupted
    (hordered : ∀ m, ∀ d ∈ data, (family.residual m d).isOrdered = true)
    (hmany : family.minItems ≤ data.length) :
    (∃ models last sampler, Completes family draw settings state data models last sampler) ∨
      ∃ cause, Interrupted family draw settings state data cause ∧
        (fit family draw settings state data).answer = .error cause := by
  have hmedian : data ≠ [] →
      ∀ m, ∃ d, Extended.median? (data.map (family.residual m)) = some d := by
    intro hsome m
    refine Extended.exists_median ?_ fun hnil => hsome (List.map_eq_nil_iff.mp hnil)
    intro r hr
    obtain ⟨item, hitem, rfl⟩ := List.mem_map.mp hr
    exact hordered m item hitem
  rcases fit_cases family draw settings state data with ⟨hfew, -⟩ | ⟨-, hcases⟩
  · exact absurd hfew (Nat.not_lt.mpr hmany)
  rcases hcases with ⟨cause, next, hbreaks, hfit⟩ | hwhole
  · exact Or.inr ⟨cause, hbreaks.interrupted, by rw [hfit]⟩
  have hend : ∃ (s : Search μ α σ) (models : List (Option μ)),
      s.Reached family draw settings state data models ∧
      iterations settings family.minItems = .ok models.length ∧
      Concludes family settings data models (fit family draw settings state data) := by
    rcases hwhole with ⟨count, s, hends, hfit⟩ | ⟨count, s, best, median, value, hends, hfit⟩
    · obtain ⟨models, rfl, hreached⟩ := Search.reached_of_run hends.run_eq
      exact ⟨s, models, hreached, hends.count_eq, hfit ▸ hends.concludes hreached⟩
    · obtain ⟨models, rfl, hreached⟩ := Search.reached_of_run hends.run_eq
      exact ⟨s, models, hreached, hends.count_eq, hfit ▸ hends.concludes hreached⟩
  obtain ⟨s, models, hreached, hcount, hconcludes⟩ := hend
  refine Or.inl ⟨models, _, _, hcount, hreached.iterations, hmedian, hconcludes, fun hnonneg => ?_⟩
  rw [hconcludes.failure_iff, forall_least_iff_noneFinite hnonneg]

/-- A fit fails on too few items.  On enough of them it completes exactly if none of its parts has a
fault, and it answers with a fault exactly if one of its parts has it. -/
theorem fit_completes_iff
    (hordered : ∀ m, ∀ d ∈ data, (family.residual m d).isOrdered = true) :
    (data.length < family.minItems →
        (fit family draw settings state data).answer = .ok false) ∧
      (family.minItems ≤ data.length →
        ((∃ models last sampler,
            Completes family draw settings state data models last sampler) ↔
          ∀ cause, ¬ Interrupted family draw settings state data cause) ∧
        ∀ cause, (fit family draw settings state data).answer = .error cause ↔
          Interrupted family draw settings state data cause) := by
  constructor
  · intro hfew
    rw [fit, if_pos hfew]
  intro hmany
  have hanswer : ∀ cause, Interrupted family draw settings state data cause →
      (fit family draw settings state data).answer = .error cause := fun cause h =>
    fit_answer_of_breaksOff family draw settings state data (Nat.not_lt.mpr hmany) h.breaksOff
  rcases completes_or_interrupted family draw settings state data hordered hmany with
    ⟨models, last, sampler, hcompletes⟩ | ⟨cause, hinterrupted, hfault⟩
  · have hnone := hcompletes.not_interrupted hmany
    refine ⟨iff_of_true ⟨models, last, sampler, hcompletes⟩ hnone, fun cause => ⟨?_, hanswer cause⟩⟩
    obtain ⟨found, hfound⟩ := hcompletes.concludes.answered
    intro hfault
    cases hfound.symm.trans hfault
  · refine ⟨iff_of_false ?_ fun hnone => hnone cause hinterrupted, fun other => ⟨?_, hanswer other⟩⟩
    · rintro ⟨models, last, sampler, hcompletes⟩
      exact hcompletes.not_interrupted hmany cause hinterrupted
    · intro hother
      cases hfault.symm.trans hother
      exact hinterrupted

end Report

section Numbers

section Search

variable {α : Type} [Scalar α] [Scalar.Averaged α] {settings : Settings α}

/-- The residuals of numbers are not negative. -/
theorem numbers_residual_nonneg (m d : Nat) :
    Extended.zero.le ((numbers α).residual m d) = true := by
  show Extended.zero.le (if m = d then .zero else .infinite) = true
  split
  · exact Extended.zero_le_zero
  · exact Extended.zero_le_infinite

/-- The median of the residuals of the most frequent one of three numbers. -/
theorem median_four : Extended.median? ([4, 4, 7].map ((numbers α).residual 4)) = some .zero := by
  have hzero : (.zero : Extended α).le .zero = true := Extended.zero_le_zero
  have hinfinite : (.zero : Extended α).le .infinite = true := Extended.zero_le_infinite
  have hsorted : ([.zero, .zero, .infinite] : List (Extended α)).mergeSort Extended.le =
      [.zero, .zero, .infinite] := by
    apply List.mergeSort_of_pairwise
    simp [hzero, hinfinite]
  have hordered : ([.zero, .zero, .infinite] : List (Extended α)).all Extended.isOrdered := by
    simp [Extended.isOrdered_of_le hinfinite]
  show Extended.median? [.zero, .zero, .infinite] = some .zero
  unfold Extended.median?
  rw [if_pos hordered, hsorted]
  simp

/-- Each iteration finds the most frequent number, or nothing if it draws the number seven. -/
theorem step_numbers (htries : settings.sampleTries = 1) (k h : Nat)
    {best : Option (Candidate Nat α)} (hbest : best = none ∨ best = some ⟨4, .zero⟩) :
    Search.step (numbers α) inTurn settings [4, 4, 7] ⟨k, h, best⟩ =
      if k % 3 = 2 then (none, ⟨k + 1, h, best⟩) else (none, ⟨k + 1, 4, some ⟨4, .zero⟩⟩) := by
  have hkeep : keep (numbers α) [4, 4, 7] best (some 4) = some ⟨4, .zero⟩ := by
    rcases hbest with rfl | rfl
    · have hbelow : Extended.zero.lt (bound (none : Option (Candidate Nat α))) = true :=
        Extended.zero_le_zero
      simp only [keep, median_four, if_pos hbelow]
    · simp only [keep, median_four, ite_self]
  have hturn : k % 3 = 0 ∨ k % 3 = 1 ∨ k % 3 = 2 := by omega
  have hestimate : estimateFromSample (numbers α) inTurn [4, 4, 7] h settings.sampleTries k =
      (.ok (if k % 3 = 2 then none else some 4), k + 1) := by
    rcases hturn with hk | hk | hk <;>
      simp [estimateFromSample, inTurn, htries, numbers, pick, hk, Option.filter]
  unfold Search.step
  rw [hestimate]
  by_cases hseven : k % 3 = 2
  · rw [if_pos hseven, if_pos hseven]
  · rw [if_neg hseven, if_neg hseven]
    simp only [Search.consider_eq, hkeep]

/-- A search of ten iterations among three numbers ends with the most frequent one. -/
theorem fit_numbers (htries : settings.sampleTries = 1)
    (hten : iterations settings (numbers α).minItems = .ok 10)
    (hfinite : Scalar.isFinite (0 : α) = true) :
    fit (numbers α) inTurn settings ⟨0, 0, none⟩ [4, 4, 7] =
      conclude (numbers α) settings ⟨0, 10, none⟩ [4, 4, 7] 10 ⟨4, .zero⟩ 0 := by
  have hrun : Search.run (numbers α) inTurn settings [4, 4, 7] 10 ⟨0, 0, none⟩ =
      (none, ⟨10, 4, some ⟨4, .zero⟩⟩) := by
    simp [Search.run, step_numbers htries]
  have hmany : ¬ [4, 4, 7].length < (numbers α).minItems := Nat.not_lt.mpr (Nat.le_add_left 1 2)
  simp only [fit, if_neg hmany, hten, hrun, Extended.zero]
  exact if_pos hfinite

end Search

/-- A search for the least median without refit, in which each iteration draws once. -/
def tenSamples : Settings Float := ⟨0, 0.99, 2.5, 0, 1, false⟩

set_option maxRecDepth 4000 in
/-- The threshold that belongs to a median of zero is zero. -/
theorem robustThreshold_zero : robustThreshold tenSamples 0 3 1 = .ok 0 := rfl

/-- The search among three numbers two of which are equal completes. -/
theorem fit_completes_of_equal_numbers :
    let state : State Nat Nat Float Nat := ⟨0, 0, none⟩
    let outcome := fit (numbers Float) inTurn tenSamples state [4, 4, 7]
    (∀ m, ∀ d ∈ [4, 4, 7], ((numbers Float).residual m d).isOrdered = true) ∧
      outcome.answer = .ok true ∧ outcome.state.model = 4 ∧
      (∀ cause, ¬ Interrupted (numbers Float) inTurn tenSamples state [4, 4, 7] cause) ∧
      ∃ (models : List (Option Nat)) (last sampler : Nat), models.length = 10 ∧
        Completes (numbers Float) inTurn tenSamples state [4, 4, 7] models last sampler ∧
        ReportsWinner (numbers Float) tenSamples [4, 4, 7] models outcome.state := by
  intro state outcome
  have hordered : ∀ m, ∀ d ∈ [4, 4, 7], ((numbers Float).residual m d).isOrdered = true := by
    intro m d _
    show Extended.isOrdered (if m = d then .zero else .infinite) = true
    split <;> rfl
  have hfit : outcome = conclude (numbers Float) tenSamples ⟨0, 10, none⟩ [4, 4, 7] 10
      ⟨4, .zero⟩ 0 := fit_numbers rfl rfl rfl
  have hend : outcome.answer = .ok true ∧ outcome.state.model = 4 := by
    have hvalue : robustThreshold tenSamples 0 ([4, 4, 7].length : Nat) (numbers Float).minItems =
        .ok 0 := robustThreshold_zero
    rw [hfit]
    simp only [conclude, hvalue]
    exact ⟨rfl, rfl⟩
  obtain ⟨hanswer, hmodel⟩ := hend
  obtain ⟨hcompletes, hfaults⟩ :=
    (fit_completes_iff (numbers Float) inTurn tenSamples state [4, 4, 7] hordered).2 (by decide)
  have hnone : ∀ cause, ¬ Interrupted (numbers Float) inTurn tenSamples state [4, 4, 7] cause := by
    intro cause hinterrupted
    cases hanswer.symm.trans ((hfaults cause).mpr hinterrupted)
  obtain ⟨models, last, sampler, hends⟩ := hcompletes.mpr hnone
  refine ⟨hordered, hanswer, hmodel, hnone, models, last, sampler, ?_, hends,
    hends.concludes.success hanswer⟩
  have hten : iterations tenSamples 1 = .ok 10 := rfl
  exact (Except.ok.inj (hten.symm.trans hends.count_eq)).symm

/-- A residual whose square root is a number, while the threshold that belongs to it is none. -/
def far : Float := 9e306

/-- Numbers as models and items, different ones being far apart. -/
def farNumbers : Family Nat Nat Float :=
  ⟨1, fun _ sample => sample.head?, fun m d => if m = d then .zero else .finite far⟩

/-- Samples that hold the first item only. -/
def firstItem : Sampler Nat := fun k _ _ => (.ok [0], k + 1)

/-- The median of one residual that is zero and two that are far. -/
theorem median_far : Extended.median? ([4, 5, 5].map (farNumbers.residual 4)) =
    some (.finite far) := by
  have hsorted : ([.zero, .finite far, .finite far] : List (Extended Float)).mergeSort Extended.le =
      [.zero, .finite far, .finite far] := by
    apply List.mergeSort_of_pairwise
    have hle : Extended.zero.le (.finite far) = true ∧
        (Extended.finite far).le (.finite far) = true := by decide +kernel
    simp [hle]
  have hordered : ([.zero, .finite far, .finite far] : List (Extended Float)).all
      Extended.isOrdered := by decide +kernel
  show Extended.median? [.zero, .finite far, .finite far] = _
  unfold Extended.median?
  rw [if_pos hordered, hsorted]
  simp

/-- Each iteration finds the first item. -/
theorem step_farNumbers (k h : Nat) {best : Option (Candidate Nat Float)}
    (hbest : best = none ∨ best = some ⟨4, .finite far⟩) :
    Search.step farNumbers firstItem tenSamples [4, 5, 5] ⟨k, h, best⟩ =
      (none, ⟨k + 1, 4, some ⟨4, .finite far⟩⟩) := by
  have hkeep : keep farNumbers [4, 5, 5] best (some 4) = some ⟨4, .finite far⟩ := by
    rcases hbest with rfl | rfl
    · have hbelow : (Extended.finite far).lt (bound (none : Option (Candidate Nat Float))) = true :=
        by decide +kernel
      simp only [keep, median_far, if_pos hbelow]
    · simp only [keep, median_far, ite_self]
  have hestimate : estimateFromSample farNumbers firstItem [4, 5, 5] h tenSamples.sampleTries k =
      (.ok (some 4), k + 1) := rfl
  unfold Search.step
  rw [hestimate]
  simp only [Search.consider_eq, hkeep]

/-- The least median of a search is a number and its threshold is none, so that the fit does not
complete, although all of its parts but the threshold have a result. -/
theorem not_completes_of_overflow :
    let state : State Nat Nat Float Nat := ⟨0, 0, none⟩
    (∀ m, ∀ d ∈ [4, 5, 5], (farNumbers.residual m d).isOrdered = true) ∧
      farNumbers.minItems ≤ [4, 5, 5].length ∧
      ¬ ∃ models last sampler,
        Completes farNumbers firstItem tenSamples state [4, 5, 5] models last sampler := by
  intro state
  have hordered : ∀ m, ∀ d ∈ [4, 5, 5], (farNumbers.residual m d).isOrdered = true := by
    intro m d _
    show Extended.isOrdered (if m = d then .zero else .finite far) = true
    split <;> decide +kernel
  have hrun : Search.run farNumbers firstItem tenSamples [4, 5, 5] 10 (Search.start state) =
      (none, ⟨10, 4, some ⟨4, .finite far⟩⟩) := by
    simp [Search.run, Search.start, step_farNumbers, state]
  have hthreshold : robustThreshold tenSamples far 3 1 = .error .overflow := by
    have hoverflow : (Scalar.isFinite (tenSamples.multiplier * noise tenSamples.minScale far 3 1) &&
        !Scalar.isFinite (Scalar.square
          (tenSamples.multiplier * noise tenSamples.minScale far 3 1))) = true := by
      decide +kernel
    simp only [robustThreshold, hoverflow, if_true]
  have hbreaks : BreaksOff farNumbers firstItem tenSamples state [4, 5, 5] .overflow :=
    .threshold rfl hrun rfl rfl (by decide +kernel) hthreshold
  refine ⟨hordered, by decide, ?_⟩
  rintro ⟨models, last, sampler, hcompletes⟩
  obtain ⟨found, hfound⟩ := hcompletes.concludes.answered
  rw [fit_answer_of_breaksOff farNumbers firstItem tenSamples state [4, 5, 5] (by decide) hbreaks]
    at hfound
  cases hfound

end Numbers

end Projectivity.Fitting.Lmeds
