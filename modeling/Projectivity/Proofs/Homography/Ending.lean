import Mathlib.Logic.ExistsUnique
import Projectivity.Proofs.Exact.Recovery
import Projectivity.Proofs.Homography.Search

/-!
# How an estimation ends

An estimation ends in one of three ways: there is too little data, or the fitter finds
no homography and a linear estimate takes its place, or the fitter finds one and it is
refined.  What is left behind depends on the data and on the random state, and on
nothing that an earlier estimation has left.  An estimation that ends in none of the
three ways was broken off by a fault of its search or of its refinement.
-/

set_option autoImplicit false

namespace Projectivity.Estimator

variable {α σ : Type} [Scalar α] [Summation α] [Spectral α]

/-- The ways in which an estimation ends. -/
inductive Ending where
  | tooFew
  | linear
  | refined
deriving DecidableEq

variable (draw : Sampler σ) (e : Estimator α σ) (data : List (Correspondence α))

/-- The answer of an estimation, its flag and the report of its fitter say the same. -/
structure Agrees (outcome : Fitting.Outcome (Estimator α σ) Notice) (success : Bool) : Prop where
  answer_eq : outcome.answer = .ok success
  flag_eq : outcome.state.success = success
  summary_eq : outcome.state.fitter.summary.map Fitting.Summary.success = some success

/-- The end of an estimation from too little data.  No sample is drawn: the outcome is the same
for every source of samples, and the random state stays where it was. -/
structure EndsTooFew : Prop where
  few : data.length < Linear.minItems
  agrees : Agrees (e.fit draw data) false
  model_eq : (e.fit draw data).state.model = Homography.identity
  inliers_eq : (e.fit draw data).state.fitter.inliers = []
  outliers_eq : (e.fit draw data).state.fitter.outliers = []
  sampler_eq : (e.fit draw data).state.fitter.sampler = e.fitter.sampler
  undrawn : ∀ other, e.fit other data = e.fit draw data

/-- The end of an estimation whose fitter finds nothing. -/
structure EndsLinear : Prop where
  enough : Linear.minItems ≤ data.length
  failed : (e.search draw data).answer = .ok false
  agrees : Agrees (e.fit draw data) false
  model_eq : (e.fit draw data).state.model =
    match Linear.estimate? Linear.rankTolerance data with
    | some H => ⟨H⟩
    | none => Homography.identity
  inliers_eq : (e.fit draw data).state.fitter.inliers = []
  outliers_eq : (e.fit draw data).state.fitter.outliers = []

/-- The end of an estimation whose fitter finds a homography. -/
structure EndsRefined : Prop where
  enough : Linear.minItems ≤ (e.fit draw data).state.fitter.inliers.length
  found : (e.search draw data).answer = .ok true
  agrees : Agrees (e.fit draw data) true
  /-- The two lists are the items with some property and the items without it, in order. -/
  partitioned : ∃ p : Correspondence α → Bool,
    (e.fit draw data).state.fitter.inliers = data.filter p ∧
      (e.fit draw data).state.fitter.outliers = data.filter fun c => !p c
  refined : ∃ outcome,
    e.refinement.refine e.solver (e.search draw data).state.model.matrix
      (e.fit draw data).state.fitter.inliers = .ok outcome ∧
      (e.fit draw data).state.model.matrix = outcome.matrix
  /-- The cost on the inliers is not above that of the homography of the fitter. -/
  not_worse : (e.fit draw data).state.model = (e.search draw data).state.model ∨
    e.refinement.cost (e.fit draw data).state.model.matrix
        (e.fit draw data).state.fitter.inliers ≤
      e.refinement.cost (e.search draw data).state.model.matrix
        (e.fit draw data).state.fitter.inliers

/-- An estimation ends in one of the three ways. -/
def EndsIn : Ending → Prop
  | .tooFew => e.EndsTooFew draw data
  | .linear => e.EndsLinear draw data
  | .refined => e.EndsRefined draw data

/-- What breaks an estimation from enough data off: its search, or a fault of the solver that is not
a bad value, or a refined transform that is not finite. -/
inductive BreaksOff : Prop where
  | search (cause : Fault) (enough : Linear.minItems ≤ data.length)
      (broken : e.fresh.BreaksOff (Homography.family e.direction) draw data cause)
  | solver (cause : Fault) (found : (e.search draw data).answer = .ok true)
      (broken : e.refinement.BreaksOff e.solver (e.search draw data).state.model.matrix
        (e.search draw data).state.inliers cause)
  | matrix (outcome : Refinement.Outcome α) (found : (e.search draw data).answer = .ok true)
      (refined : e.refinement.refine e.solver (e.search draw data).state.model.matrix
        (e.search draw data).state.inliers = .ok outcome)
      (broken : outcome.matrix.isFinite = false)

section Steps

/-- A fit on too few correspondences ends for this reason. -/
theorem endsTooFew_of_few (h : data.length < Linear.minItems) : e.EndsTooFew draw data := by
  have hfew : data.length < (Homography.family (α := α) e.direction).minItems := h
  obtain ⟨-, hfails, hsampler, hother⟩ :=
    e.fresh.fit_few (Homography.family e.direction) draw data hfew
  obtain ⟨hstate, hanswer⟩ := e.fit_of_few draw data h
  refine ⟨h, ⟨hanswer, ?_, ?_⟩, ?_, ?_, ?_, ?_, ?_⟩
  · rw [hstate]
    rfl
  · rw [hstate]
    exact hfails.success_eq
  · rw [hstate]
    exact hfails.model_eq.trans (Fitter.model_withModel _ _)
  · rw [hstate]
    exact hfails.inliers_eq
  · rw [hstate]
    exact hfails.outliers_eq
  · rw [hstate]
    exact hsampler.trans (Fitter.sampler_withModel _ _)
  · intro other
    have hsame := hother other
    unfold fresh at hsame
    simp only [fit, withModel, hsame]

/-- An estimation whose fitter fails ends with a linear estimate or with the identity. -/
theorem endsLinear_of_failed (h : Linear.minItems ≤ data.length)
    (hfailed : (e.search draw data).answer = .ok false) : e.EndsLinear draw data := by
  have hmany : ¬ data.length < (Homography.family (α := α) e.direction).minItems :=
    Nat.not_lt.mpr h
  have hfails : e.fresh.Fails (e.search draw data).state :=
    e.fresh.fails_of_fit (Homography.family e.direction) draw data hmany hfailed
  have hmodel : (e.searched draw data).model = Homography.identity :=
    hfails.model_eq.trans (Fitter.model_withModel _ _)
  obtain ⟨hstate, hanswer⟩ := e.fit_of_enough draw data h
  have hnext : e.next draw data = (e.searched draw data).fallBack data := by
    simp only [next, hfailed]
  rw [hnext] at hstate hanswer
  obtain ⟨hfalse, hflag, -, hlinear⟩ := (e.searched draw data).fallBack_spec data
  refine ⟨h, hfailed, ⟨hanswer.trans hfalse, ?_, ?_⟩, ?_, ?_, ?_⟩
  · rw [hstate, hflag]
    rfl
  · rw [e.summary_fit draw data]
    exact hfails.success_eq
  · rw [hstate, hlinear]
    cases Linear.estimate? (α := α) Linear.rankTolerance data with
    | none => exact hmodel
    | some H => rfl
  · exact (e.inliers_fit draw data).trans hfails.inliers_eq
  · exact (e.outliers_fit draw data).trans hfails.outliers_eq

/-- An estimation whose fitter succeeds and whose refinement returns a finite transform ends with
that transform. -/
theorem endsRefined_of_found (hfound : (e.search draw data).answer = .ok true)
    {outcome : Refinement.Outcome α}
    (hrefine : e.refinement.refine e.solver (e.search draw data).state.model.matrix
      (e.search draw data).state.inliers = .ok outcome)
    (hfinite : outcome.matrix.isFinite = true) : e.EndsRefined draw data := by
  have hsucceeds := e.succeeds_of_found draw data hfound
  obtain ⟨threshold, -, hinliers, houtliers, henough⟩ := hsucceeds.exists_threshold
  obtain ⟨hstate, hanswer⟩ := e.fit_of_refined draw data hfound hrefine hfinite
  have hmodel : (e.fit draw data).state.model = ⟨outcome.matrix⟩ := by
    rw [hstate]
    exact Fitter.model_withModel _ _
  -- The refinement replaces the model and leaves the report of the fitter as it is.
  have hkeep := e.inliers_fit draw data
  refine ⟨hkeep ▸ henough, hfound, ⟨hanswer, ?_, ?_⟩,
    ⟨Fitting.agrees (Homography.family e.direction) threshold (e.search draw data).state.model,
      ?_, ?_⟩, ⟨outcome, ?_, ?_⟩, ?_⟩
  · rw [hstate]
  · rw [e.summary_fit draw data]
    exact hsucceeds.success_eq
  · exact hkeep.trans hinliers
  · exact (e.outliers_fit draw data).trans houtliers
  · rw [hkeep]
    exact hrefine
  · rw [hmodel]
  · rw [hmodel, hkeep]
    rcases e.refinement.refine_matrix _ _ hrefine with hsame | himproves
    · exact Or.inl (by rw [hsame])
    · exact Or.inr himproves.cost_le

/-- An estimation that is broken off answers with a fault. -/
theorem answer_of_breaksOff (h : e.BreaksOff draw data) :
    ∃ cause, (e.fit draw data).answer = .error cause := by
  cases h with
  | search cause enough broken =>
    have hmany : ¬ data.length < (Homography.family (α := α) e.direction).minItems :=
      Nat.not_lt.mpr enough
    have herror : (e.search draw data).answer = .error cause :=
      (e.fresh.fit_error_iff _ draw data hmany cause).mpr broken
    obtain ⟨-, hanswer⟩ := e.fit_of_enough draw data enough
    exact ⟨cause, by simp only [hanswer, next, herror]⟩
  | solver cause found broken =>
    have herror := (e.refinement.refine_error_iff _ _ cause).mpr broken
    exact ⟨cause, e.fit_of_refused draw data found herror⟩
  | matrix outcome found refined broken =>
    obtain ⟨-, hanswer⟩ := e.fit_of_enough draw data (e.enough_of_found draw data found)
    have hok : (e.searched draw data).refinement.refine (e.searched draw data).solver
        (e.searched draw data).model.matrix (e.searched draw data).fitter.inliers =
          .ok outcome := refined
    have hinfinite : ¬ outcome.matrix.isFinite = true := by simp only [broken]; decide
    exact ⟨.nonFiniteEntry, by
      simp only [hanswer, next, found, refine, hok, Homography.ofMatrix, if_neg hinfinite]⟩

/-- An estimation that is not broken off ends in one of the three ways. -/
theorem exists_ending (h : ¬ e.BreaksOff draw data) : ∃ ending, e.EndsIn draw data ending := by
  by_cases hfew : data.length < Linear.minItems
  · exact ⟨.tooFew, e.endsTooFew_of_few draw data hfew⟩
  have henough := Nat.le_of_not_lt hfew
  have hmany : ¬ data.length < (Homography.family (α := α) e.direction).minItems := hfew
  cases hanswer : (e.search draw data).answer with
  | error cause =>
    have hbroken := (e.fresh.fit_error_iff _ draw data hmany cause).mp hanswer
    exact absurd (.search cause henough hbroken) h
  | ok found =>
    cases found with
    | false => exact ⟨.linear, e.endsLinear_of_failed draw data henough hanswer⟩
    | true =>
      cases hrefine : e.refinement.refine e.solver (e.search draw data).state.model.matrix
          (e.search draw data).state.inliers with
      | error cause =>
        have hbroken := (e.refinement.refine_error_iff _ _ cause).mp hrefine
        exact absurd (.solver cause hanswer hbroken) h
      | ok outcome =>
        cases hfinite : outcome.matrix.isFinite with
        | false => exact absurd (.matrix outcome hanswer hrefine hfinite) h
        | true =>
          exact ⟨.refined, e.endsRefined_of_found draw data hanswer hrefine hfinite⟩

/-- An estimation that succeeds has found a homography and refined it. -/
theorem endsRefined_of_answer (h : (e.fit draw data).answer = .ok true) :
    e.EndsRefined draw data := by
  have hwhole : ¬ e.BreaksOff draw data := by
    intro hbroken
    obtain ⟨cause, herror⟩ := e.answer_of_breaksOff draw data hbroken
    rw [h] at herror
    cases herror
  obtain ⟨ending, hends⟩ := e.exists_ending draw data hwhole
  cases ending with
  | tooFew =>
    have hfalse := hends.agrees.answer_eq
    rw [h] at hfalse
    cases hfalse
  | linear =>
    have hfalse := hends.agrees.answer_eq
    rw [h] at hfalse
    cases hfalse
  | refined => exact hends

/-- A fit that ends in one of these ways answers. -/
theorem answer_of_endsIn {ending : Ending} (h : e.EndsIn draw data ending) :
    ∃ success, (e.fit draw data).answer = .ok success := by
  cases ending with
  | tooFew => exact ⟨false, h.agrees.answer_eq⟩
  | linear => exact ⟨false, h.agrees.answer_eq⟩
  | refined => exact ⟨true, h.agrees.answer_eq⟩

/-- The ending that the number of items and the answer of the search allow. -/
def possibleEnding : Ending :=
  if data.length < Linear.minItems then .tooFew
  else match (e.search draw data).answer with
    | .ok true => .refined
    | _ => .linear

/-- An estimation ends in no other way than the possible one. -/
theorem eq_possibleEnding {ending : Ending} (h : e.EndsIn draw data ending) :
    ending = e.possibleEnding draw data := by
  unfold possibleEnding
  cases ending with
  | tooFew => rw [if_pos h.few]
  | linear => rw [if_neg (Nat.not_lt.mpr h.enough), h.failed]
  | refined => rw [if_neg (Nat.not_lt.mpr (e.enough_of_found draw data h.found)), h.found]

end Steps

/-- An estimation ends in exactly one of the three ways unless it is broken off, whatever an earlier
estimation has left behind. -/
theorem exists_unique_ending_iff :
    (∃! ending, e.EndsIn draw data ending) ↔ ¬ e.BreaksOff draw data := by
  constructor
  · rintro ⟨ending, hends, -⟩ hbroken
    obtain ⟨success, hok⟩ := e.answer_of_endsIn draw data hends
    obtain ⟨cause, herror⟩ := e.answer_of_breaksOff draw data hbroken
    rw [hok] at herror
    cases herror
  · intro hwhole
    obtain ⟨ending, hends⟩ := e.exists_ending draw data hwhole
    refine ⟨ending, hends, ?_⟩
    intro other hother
    rw [e.eq_possibleEnding draw data hother, e.eq_possibleEnding draw data hends]

/-- A solver that breaks off with an overflow breaks the estimation off, even on data without
errors: it ends in none of the three ways. -/
theorem not_exists_unique_ending_of_overflow :
    letI : Spectral ℝ := Spectral.chosen
    ¬ ∃! ending, (squareEstimator fun _ _ => .error .overflow).EndsIn squareDraw square ending := by
  let spectral : Spectral ℝ := Spectral.chosen
  have hexact : Spectral.Exact := Spectral.chosen_exact
  rintro ⟨ending, hends, -⟩
  obtain ⟨success, hok⟩ := answer_of_endsIn squareDraw _ square hends
  rw [fit_square_of_overflow] at hok
  cases hok

end Projectivity.Estimator
