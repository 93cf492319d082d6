import Projectivity.Proofs.Fitting.Consultation
import Projectivity.Proofs.Fitting.Required
import Projectivity.Proofs.Fitting.Selection
import Projectivity.Proofs.Random.Selection

/-!
# Larger budgets of iterations

Searches that differ in their number of iterations only draw the same samples, so the
longer one begins with all iterations of the shorter one.  If the policy ends the shorter
search early, the longer one ends there as well.  If not, the longer search goes on, and
the best candidate that it keeps is never replaced by a worse one.  A rule that accepts
a number of inliers accepts more of them, and thus a success remains a success.
-/

set_option autoImplicit false

namespace Projectivity.Fitting.Ransac

variable {μ δ α τ σ : Type} [Scalar α]

section Comparison

/-- A candidate has more inliers than another one, or as many with a smaller error or the same. -/
def Candidate.NoWorse (a b : Candidate μ α) : Prop :=
  b.inliers < a.inliers ∨
    a.inliers = b.inliers ∧ (a.error = b.error ∨ a.error.lt b.error = true)

/-- A search has a best candidate if another one has, and one that is no worse. -/
def Search.NoWorse (t s : Search μ α τ σ) : Prop :=
  ∀ b, s.best = some b → ∃ a, t.best = some a ∧ a.NoWorse b

variable {a b c : Candidate μ α}

/-- A candidate that is no worse has at least as many inliers. -/
theorem Candidate.NoWorse.inliers_le (h : a.NoWorse b) : b.inliers ≤ a.inliers := by
  rcases h with hmore | ⟨hsame, -⟩
  · exact Nat.le_of_lt hmore
  · exact hsame.ge

/-- A candidate is no worse than itself. -/
theorem Candidate.NoWorse.refl (a : Candidate μ α) : a.NoWorse a :=
  Or.inr ⟨rfl, Or.inl rfl⟩

/-- To be no worse is transitive. -/
theorem Candidate.NoWorse.trans [Scalar.Strict α] (hab : a.NoWorse b) (hbc : b.NoWorse c) :
    a.NoWorse c := by
  rcases hab with hmore | ⟨hsame, herror⟩
  · exact Or.inl (Nat.lt_of_le_of_lt hbc.inliers_le hmore)
  rcases hbc with hmore' | ⟨hsame', herror'⟩
  · exact Or.inl (hsame ▸ hmore')
  refine Or.inr ⟨hsame.trans hsame', ?_⟩
  rcases herror with heq | hlt
  · rw [heq]
    exact herror'
  · rcases herror' with heq' | hlt'
    · exact Or.inr (heq' ▸ hlt)
    · exact Or.inr (Extended.lt_trans hlt hlt')

/-- What is kept of two candidates is no worse than the earlier one. -/
theorem Candidate.better_noWorse (a b : Candidate μ α) :
    (Candidate.better (some b) a).NoWorse b := by
  unfold Candidate.better
  simp only
  split
  · rename_i hbeats
    simp only [Candidate.beats, Bool.or_eq_true, decide_eq_true_eq, Bool.and_eq_true,
      beq_iff_eq] at hbeats
    rcases hbeats with hmore | ⟨hsame, hless⟩
    · exact Or.inl hmore
    · exact Or.inr ⟨hsame, Or.inr hless⟩
  · exact Candidate.NoWorse.refl b

end Comparison

variable [Summation α] [Stopping.Policy τ]
variable (family : Family μ δ α) (draw : Sampler σ) (settings : Settings α) (data : List δ)

section Runs

/-- The best candidate only changes for one that is no worse. -/
theorem Search.run_noWorse [Scalar.Strict α] (n : Nat) (s : Search μ α τ σ) :
    (s.run family draw settings data n).2.NoWorse s := by
  refine Search.run_invariant family draw settings data (fun t => t.NoWorse s) ?_ n s
    fun b hb => ⟨b, hb, Candidate.NoWorse.refl b⟩
  intro t ht b hb
  obtain ⟨a, ha, hnoWorse⟩ := ht b hb
  rcases Search.step_best family draw settings data t with hkeep | ⟨m, hnew⟩
  · exact ⟨a, hkeep.trans ha, hnoWorse⟩
  · rw [ha] at hnew
    exact ⟨_, hnew, (Candidate.better_noWorse _ a).trans hnoWorse⟩

omit [Stopping.Policy τ] in
/-- What is kept of the models of iterations is a sound candidate. -/
theorem kept_sound {models : List (Option μ)} {best : Candidate μ α}
    (h : kept family settings data models = some best) :
    best.Sound family data settings.threshold := by
  induction models using List.reverseRecOn generalizing best with
  | nil => cases h
  | append_singleton models outcome ih =>
    unfold kept at ih h
    rw [List.foldl_append, List.foldl_cons, List.foldl_nil] at h
    cases outcome with
    | none => exact ih h
    | some m =>
      rw [keep, Option.some.injEq] at h
      subst h
      rcases Candidate.better_cases (List.foldl (keep family settings data) none models)
        (Candidate.of family data settings.threshold m) with hnew | hold
      · rw [hnew]
        exact Candidate.of_sound family data settings.threshold m
      · exact ih hold

/-- Iterations that have ended early are not followed by further ones, and other iterations go on
where they have ended.  The induction is on the way in which they end. -/
theorem Search.Ends.run_add {n : Nat} {s t : Search μ α τ σ} {early : Bool}
    (h : Search.Ends family draw settings data n s early t) (k : Nat) :
    s.run family draw settings data (n + k) =
      if early then (none, t) else t.run family draw settings data k := by
  induction h with
  | complete => rw [Nat.zero_add, if_neg Bool.false_ne_true]
  | stop step =>
    rw [Nat.succ_add, Search.run, step]
    rfl
  | goOn step _ ih =>
    rw [Nat.succ_add, Search.run, step]
    exact ih

end Runs

section Budgets

/-- Settings with another number of iterations. -/
def Settings.withBudget (settings : Settings α) (budget : Nat) : Settings α :=
  { settings with maxIterations := budget }

/-- The number of iterations that are allowed in all does not matter to any of them. -/
theorem Search.run_withBudget (budget n : Nat) (s : Search μ α τ σ) :
    s.run family draw (settings.withBudget budget) data n = s.run family draw settings data n := by
  induction n generalizing s with
  | zero => rfl
  | succ n ih =>
    have hstep : s.step family draw (settings.withBudget budget) data =
        s.step family draw settings data := rfl
    rw [Search.run, Search.run, hstep]
    rcases s.step family draw settings data with ⟨verdict, next⟩
    cases verdict with
    | goOn => exact ih next
    | stop => rfl
    | fault cause => rfl

end Budgets

section Successes

variable {family settings data} {state : State μ δ α τ σ} {s : Search μ α τ σ}

omit [Stopping.Policy τ] [Summation α] in
/-- Without refit a candidate keeps its model and its mask. -/
theorem settle_of_not_refits (hrefits : settings.refits = false) (best : Candidate μ α) :
    settle family settings data best = (best.model, best.mask) := by
  rw [settle, hrefits, if_neg Bool.false_ne_true]

omit [Summation α] in
/-- Without refit, a best candidate with enough inliers that is accepted makes a success. -/
theorem answer_of_best (hrefits : settings.refits = false)
    (hsound : s.Sound family settings data) {best : Candidate μ α} (hbest : s.best = some best)
    (henough : family.minItems ≤ best.inliers)
    (haccepts : Stopping.Policy.accepts s.stopping best.inliers = .ok true) :
    (conclude family settings state data s).answer = .ok true := by
  rw [(hsound.candidate best hbest).inliers_eq] at haccepts
  simp only [conclude, hbest, if_neg (Nat.not_lt.mpr henough), settle_of_not_refits hrefits,
    haccepts]

omit [Summation α] in
/-- Without refit, a success comes from a best candidate with enough inliers that is accepted, and
reports as many inliers as the candidate has. -/
theorem best_of_answer (hrefits : settings.refits = false)
    (hsound : s.Sound family settings data)
    (hanswer : (conclude family settings state data s).answer = .ok true) :
    ∃ best, s.best = some best ∧ family.minItems ≤ best.inliers ∧
      Stopping.Policy.accepts s.stopping best.inliers = .ok true ∧ ∃ report,
        (conclude family settings state data s).state.summary = some report ∧
          report.inliers.length = best.inliers := by
  rcases conclude_cases family settings state data s with
    ⟨inliers, hend⟩ | ⟨best, cause, _, _, hend⟩ | ⟨best, hbest, henough, haccepts, hend⟩
  · rw [hend] at hanswer
    cases hanswer
  · rw [hend] at hanswer
    cases hanswer
  have hcandidate := hsound.candidate best hbest
  have hsupports := hcandidate.supports henough
  rw [settle_of_not_refits hrefits, ← hcandidate.inliers_eq] at haccepts
  refine ⟨best, hbest, Nat.le_of_not_lt henough, haccepts, _, by rw [hend]; rfl, ?_⟩
  simp only [settle_of_not_refits hrefits, hsupports.partition_eq]
  rw [hcandidate.inliers_eq, hsupports.marks_eq]

end Successes

section Servings

variable (state : State μ δ α (Stopping α) σ)

/-- What becomes of a fit without refit when it may run longer.  It stays the same if there are too
few items, or if its rule ends the search early.  Otherwise the search goes on to an end whose best
candidate is no worse, and a success remains a success with as many inliers or more. -/
structure Outlasts (budget : Nat)
    (short long : Outcome (State μ δ α (Stopping α) σ) Notice) : Prop where
  same_of_few : data.length < family.minItems → long = short
  same_of_early : ∀ s, Search.Ends family draw settings data settings.maxIterations
    (Search.start family state data) true s → long = short
  noWorse : family.minItems ≤ data.length → ∃ early s later t,
    Search.Ends family draw settings data settings.maxIterations
        (Search.start family state data) early s ∧
      short = conclude family settings state data s ∧
      Search.Ends family draw settings data budget (Search.start family state data) later t ∧
      long = conclude family settings state data t ∧ t.NoWorse s
  succeeds : short.answer = .ok true → long.answer = .ok true ∧
    ∃ report more, short.state.summary = some report ∧ long.state.summary = some more ∧
      report.inliers.length ≤ more.inliers.length

variable {family draw settings data state}

/-- A search among enough items is broken off by its rule only. -/
theorem undefined_of_breaksOff (hserves : Serves draw)
    (hmany : family.minItems ≤ data.length) {cause : Fault}
    (h : Search.BreaksOff family draw settings data state cause) :
    state.stopping.rule.Undefined data.length family.minItems := by
  cases h with
  | @draw models s k reached begun inTime failed =>
    obtain ⟨sample, hsample⟩ := hserves.exists_sampleAt hmany s.sampler k
    rw [failed.failed] at hsample
    cases hsample
  | @policy models s next outcome best reached begun advances best_eq enough failed =>
    have hkept := (reached.advance advances).best_eq.symm.trans best_eq
    have hsound := kept_sound family settings data hkept
    exact reached.asked.setUp.undefined enough hsound.inliers_le failed

variable (settings) in
/-- A search among enough items comes to an end, whatever its number of iterations is. -/
theorem exists_ends [Stopping.Reckoned α] (hserves : Serves draw)
    (hanswers : state.stopping.rule.Answers data.length family.minItems)
    (hmany : family.minItems ≤ data.length) (budget : Nat) :
    ∃ early s, Search.Ends family draw settings data budget
      (Search.start family state data) early s := by
  rcases hrun : (Search.start family state data).run family draw settings data budget with
    ⟨fault, s⟩
  cases fault with
  | none =>
    obtain ⟨early, hends⟩ := (Search.run_eq_none_iff _ _ _ _).mp hrun
    exact ⟨early, s, hends⟩
  | some cause =>
    rw [← Search.run_withBudget family draw settings data budget] at hrun
    exact absurd (undefined_of_breaksOff hserves hmany (Search.breaksOff_of_run hrun))
      hanswers.not_undefined

/-- A fit is concluded at the end of its search. -/
theorem fit_eq_of_ends {budget : Nat} {s : Search μ α (Stopping α) σ} {early : Bool}
    (hmany : family.minItems ≤ data.length)
    (hends : Search.Ends family draw settings data budget (Search.start family state data) early
      s) :
    fit family draw (settings.withBudget budget) state data =
      conclude family settings state data s := by
  have hrun := (Search.run_eq_none_iff _ _ _ _).mpr ⟨early, hends⟩
  rw [← Search.run_withBudget family draw settings data budget] at hrun
  exact fit_eq_conclude (Nat.not_lt.mpr hmany) hrun

/-- The candidates at the end of a search are sound. -/
theorem Search.Ends.sound {n : Nat} {s : Search μ α (Stopping α) σ} {early : Bool}
    (h : Search.Ends family draw settings data n (Search.start family state data) early s) :
    s.Sound family settings data := by
  have hsound := Search.run_invariant family draw settings data
    (Search.Sound family settings data)
    (fun s hs => hs.step family draw settings data) n
    (Search.start family state data) (Search.start_sound family settings state data)
  rw [(Search.run_eq_none_iff _ _ _ _).mpr ⟨early, h⟩] at hsound
  exact hsound

/-- At the end of a search its rule is set up as it was. -/
theorem Search.Ends.setUp {n : Nat} {s : Search μ α (Stopping α) σ} {early : Bool}
    (h : Search.Ends family draw settings data n (Search.start family state data) early s) :
    Stopping.SetUp state.stopping.rule data.length family.minItems s.stopping := by
  have hsetUp := search_setUp family draw settings state data n
  rw [(Search.run_eq_none_iff _ _ _ _).mpr ⟨early, h⟩] at hsetUp
  exact hsetUp

variable [Scalar.Strict α]

/-- Whatever a search with a larger number of iterations ends with is no worse than what it has
after fewer of them. -/
theorem Search.Ends.noWorse {m k : Nat} {s t u : Search μ α (Stopping α) σ}
    {early later : Bool}
    (hs : Search.Ends family draw settings data m u early s)
    (ht : Search.Ends family draw settings data (m + k) u later t) :
    t.NoWorse s := by
  have hrun := (Search.run_eq_none_iff _ _ _ _).mpr ⟨later, ht⟩
  rw [hs.run_add] at hrun
  cases early with
  | true =>
    cases hrun
    exact fun b hb => ⟨b, hb, Candidate.NoWorse.refl b⟩
  | false =>
    have hgoesOn := Search.run_noWorse family draw settings data k s
    rw [if_neg Bool.false_ne_true] at hrun
    rw [hrun] at hgoesOn
    exact hgoesOn

/-- Without refit, a success remains a success at the end of a search that goes on. -/
theorem Search.Ends.succeeds (hrefits : settings.refits = false) {m k : Nat}
    {s t : Search μ α (Stopping α) σ} {early later : Bool}
    (hs : Search.Ends family draw settings data m
      (Search.start family state data) early s)
    (ht : Search.Ends family draw settings data (m + k)
      (Search.start family state data) later t)
    (hanswer : (conclude family settings state data s).answer = .ok true) :
    (conclude family settings state data t).answer = .ok true ∧ ∃ report more,
      (conclude family settings state data s).state.summary = some report ∧
        (conclude family settings state data t).state.summary = some more ∧
        report.inliers.length ≤ more.inliers.length := by
  obtain ⟨best, hbest, henough, haccepts, report, hreport, hcount⟩ :=
    best_of_answer hrefits hs.sound hanswer
  obtain ⟨found, hfound, hnoWorse⟩ := hs.noWorse ht best hbest
  have hmore := hnoWorse.inliers_le
  have hlater : (conclude family settings state data t).answer = .ok true :=
    answer_of_best hrefits ht.sound hfound (henough.trans hmore)
      (hs.setUp.accepts_mono ht.setUp (Int.ofNat_le.mpr hmore) haccepts)
  obtain ⟨same, hsame, -, -, more, hreports, hlength⟩ := best_of_answer hrefits ht.sound hlater
  rw [hfound, Option.some.injEq] at hsame
  subst hsame
  exact ⟨hlater, report, more, hreport, hreports, by omega⟩

/-- A larger number of iterations never hurts a fit without refit. -/
theorem fit_outlasts [Stopping.Reckoned α] (hserves : Serves draw)
    (hrefits : settings.refits = false)
    (hanswers : state.stopping.rule.Answers data.length family.minItems) {budget : Nat}
    (hbudget : settings.maxIterations ≤ budget) :
    Outlasts family draw settings data state budget (fit family draw settings state data)
      (fit family draw (settings.withBudget budget) state data) := by
  obtain ⟨k, rfl⟩ := Nat.exists_eq_add_of_le hbudget
  rcases Nat.lt_or_ge data.length family.minItems with hfew | hmany
  · have hsame : fit family draw (settings.withBudget (settings.maxIterations + k)) state data =
        fit family draw settings state data := by
      unfold fit
      rw [if_pos hfew, if_pos hfew]
      rfl
    refine ⟨fun _ => hsame, fun _ _ => hsame, fun hmany => absurd hfew (Nat.not_lt.mpr hmany), ?_⟩
    intro hanswer
    rw [fit, if_pos hfew] at hanswer
    cases hanswer
  · obtain ⟨early, s, hs⟩ := exists_ends settings hserves hanswers hmany settings.maxIterations
    obtain ⟨later, t, ht⟩ := exists_ends settings hserves hanswers hmany (settings.maxIterations + k)
    have hshort : fit family draw settings state data =
        conclude family settings state data s := fit_eq_of_ends hmany hs
    rw [hshort, fit_eq_of_ends hmany ht]
    refine ⟨fun hfew => absurd hfew (Nat.not_lt.mpr hmany), ?_,
      fun _ => ⟨early, s, later, t, hs, rfl, ht, rfl, hs.noWorse ht⟩, hs.succeeds hrefits ht⟩
    intro u hu
    have hgoesOn := (Search.run_eq_none_iff _ _ _ _).mpr ⟨later, ht⟩
    rw [hu.run_add, if_pos rfl] at hgoesOn
    have hstays := (Search.run_eq_none_iff _ _ _ _).mpr ⟨early, hs⟩
    rw [(Search.run_eq_none_iff _ _ _ _).mpr ⟨true, hu⟩] at hstays
    cases hgoesOn
    cases hstays
    rfl

end Servings

section Numbers

/-- Iterations of one sample each that look for items equal to a number, without refit. -/
def equalNumbers (iterations : Nat) : Settings Float := ⟨.zero, iterations, 1, false⟩

/-- A fitter with an even chance that a sample of inliers has been drawn. -/
def evenChance : State Nat Nat Float (Stopping Float) Random.Generator :=
  ⟨0, .ofRule (.adaptive (Scalar.decimal 5 1)), ⟨0, 1, none⟩, none⟩

/-- One iteration finds the first number, and six of them find the one that is there twice. -/
theorem fit_outlasts_of_equal_numbers :
    let short := fit (numbers Float) Random.uniformSampler (equalNumbers 1) evenChance [5, 4, 4, 7]
    let long := fit (numbers Float) Random.uniformSampler ((equalNumbers 1).withBudget 6) evenChance
      [5, 4, 4, 7]
    short.answer.toOption = some true ∧ short.state.model = 5 ∧ long.state.model = 4 ∧
      evenChance.stopping.rule.Answers 4 1 ∧ (equalNumbers 1).maxIterations ≤ 6 ∧
      Outlasts (numbers Float) Random.uniformSampler (equalNumbers 1) [5, 4, 4, 7] evenChance 6
        short long := by
  intro short long
  have hanswer : short.answer.toOption = some true := by decide +kernel
  have hshort : short.state.model = 5 := by decide +kernel
  have hlong : long.state.model = 4 := by decide +kernel
  have hanswers : evenChance.stopping.rule.Answers 4 1 := by
    intro confidence hrule
    rw [← Stopping.Rule.adaptive.inj hrule]
    exact ⟨by decide +kernel, by decide +kernel, by decide, by decide +kernel⟩
  have hbudget : (equalNumbers 1).maxIterations ≤ 6 := by decide
  have houtlasts := @fit_outlasts _ _ _ _ _ _ (numbers Float) Random.uniformSampler (equalNumbers 1)
    [5, 4, 4, 7] evenChance _ _ Random.uniformSampler_serves rfl hanswers 6 hbudget
  exact ⟨hanswer, hshort, hlong, hanswers, hbudget, houtlasts⟩

end Numbers

end Projectivity.Fitting.Ransac
