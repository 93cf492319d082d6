import Projectivity.Proofs.Fitting.Stopping
import Projectivity.Proofs.Fitting.Trace

/-!
# What a search asks its policy

A policy that follows a rule on the best number of inliers and the number of iterations
gives the same answers whatever it remembers.  It is asked only after an iteration that
yields a model, so a search is decided by the first of these iterations at which the
rule holds, or goes through all of its iterations.
-/

set_option autoImplicit false

namespace Projectivity

namespace Stopping

section Policies

variable {τ : Type} [Policy τ]

/-- What a policy becomes while it is asked, and answers, about numbers of inliers that reach the
sample size. -/
inductive Consulted (sampleSize : Nat) (first : τ) : τ → Prop where
  | start : Consulted sampleSize first first
  | ask {t next : τ} {inliers iteration : Nat} {stops : Bool}
      (before : Consulted sampleSize first t) (enough : sampleSize ≤ inliers)
      (answered : Policy.shouldStop t inliers iteration = (.ok stops, next)) :
      Consulted sampleSize first next

/-- A policy that, once it is set up, answers by a rule whenever it answers. -/
def Follows (policy : τ) (items sampleSize : Nat) (rule : Nat → Nat → Prop) : Prop :=
  ∀ t, Consulted sampleSize (Policy.start policy items sampleSize) t →
    ∀ (inliers iteration : Nat) stops next, sampleSize ≤ inliers →
      Policy.shouldStop t inliers iteration = (.ok stops, next) →
      (stops = true ↔ rule inliers iteration)

end Policies

variable {α : Type} [Scalar α]

/-- What a rule says of a best number of inliers after a number of iterations. -/
def Rule.Holds (rule : Rule α) (items sampleSize inliers iteration : Int) : Prop :=
  match rule with
  | .bestFit => False
  | .count _ | .share _ => max (rule.limitFor items) sampleSize ≤ inliers
  | .adaptive confidence => ∃ required, Fitting.requiredIterations confidence
      (Scalar.ofInt inliers / Scalar.ofInt items) sampleSize = .ok required ∧ required ≤ iteration

/-- The iterations that a setup holds as required are the ones for the number of inliers that it
remembers, if it remembers any. -/
def Setup.Current (setup : Setup) (confidence : α) : Prop :=
  setup.lastInliers = -1 ∨ Fitting.requiredIterations confidence
    (Scalar.ofInt setup.lastInliers / Scalar.ofInt setup.items) setup.sampleSize =
      .ok setup.required

/-- An update that succeeds leaves a setup in which only the memory differs, and which holds the
iterations that the number of inliers requires. -/
theorem Setup.update_ok {setup next : Setup} {confidence : α} {inliers : Int}
    (hcurrent : setup.Current confidence) (henough : setup.sampleSize ≤ inliers)
    (hnonneg : 0 ≤ inliers) (h : setup.update confidence inliers = (.ok (), next)) :
    next = { setup with lastInliers := inliers, required := next.required } ∧
      Fitting.requiredIterations confidence (Scalar.ofInt inliers / Scalar.ofInt setup.items)
        setup.sampleSize = .ok next.required := by
  unfold update at h
  by_cases hsame : inliers = setup.lastInliers
  · -- Nothing is computed again, and a number that is not negative is not the empty memory.
    rw [if_neg (not_and_of_not_left _ (not_not.mpr hsame)), Prod.mk.injEq] at h
    obtain ⟨-, rfl⟩ := h
    rw [hsame]
    exact ⟨rfl, hcurrent.resolve_left (by omega)⟩
  · rw [if_pos ⟨hsame, henough⟩] at h
    cases hrequired : Fitting.iterationsFor confidence inliers setup.items setup.sampleSize with
    | error cause =>
      simp only [hrequired] at h
      cases h
    | ok required =>
      simp only [hrequired, Prod.mk.injEq] at h
      obtain ⟨-, rfl⟩ := h
      exact ⟨rfl, Fitting.requiredIterations_of_iterationsFor hrequired⟩

/-- A rule that is set up for a number of items and a sample size, with a memory that is current. -/
structure Ready (rule : Rule α) (items sampleSize : Int) (s : Stopping α) (setup : Setup) :
    Prop where
  rule_eq : s.rule = rule
  setup_eq : s.setup = some setup
  items_eq : setup.items = items
  sampleSize_eq : setup.sampleSize = sampleSize
  limit_eq : setup.limit = rule.limitFor items
  current : ∀ confidence, rule = .adaptive confidence → setup.Current confidence

/-- A rule is ready after its setup. -/
theorem start_ready (s : Stopping α) (items sampleSize : Int) :
    Ready s.rule items sampleSize (s.start items sampleSize)
      ⟨items, sampleSize, s.rule.limitFor items, -1, Fitting.iterationCap⟩ :=
  ⟨rfl, rfl, rfl, rfl, rfl, fun _ _ => Or.inl rfl⟩

/-- A rule that answers stays ready, and its answer is what the rule says. -/
theorem Ready.ask {rule : Rule α} {items sampleSize inliers iteration : Int} {s next : Stopping α}
    {setup : Setup} {stops : Bool} (h : Ready rule items sampleSize s setup)
    (henough : sampleSize ≤ inliers) (hnonneg : 0 ≤ inliers)
    (hanswer : s.shouldStop inliers iteration = (.ok stops, next)) :
    (∃ after, Ready rule items sampleSize next after) ∧
      (stops = true ↔ rule.Holds items sampleSize inliers iteration) := by
  have hcount : max (rule.limitFor items) sampleSize = setup.effectiveLimit := by
    rw [Setup.effectiveLimit, h.limit_eq, h.sampleSize_eq]
  unfold shouldStop at hanswer
  simp only [h.rule_eq, h.setup_eq] at hanswer
  cases rule with
  | bestFit =>
    cases hanswer
    exact ⟨⟨setup, h⟩, iff_of_false Bool.false_ne_true id⟩
  | count limit =>
    cases hanswer
    refine ⟨⟨setup, h⟩, ?_⟩
    rw [decide_eq_true_eq, Rule.Holds, hcount]
  | share percentage =>
    cases hanswer
    refine ⟨⟨setup, h⟩, ?_⟩
    rw [decide_eq_true_eq, Rule.Holds, hcount]
  | adaptive confidence =>
    rcases hupdate : setup.update confidence inliers with ⟨outcome, after⟩
    simp only [hupdate] at hanswer
    cases outcome with
    | error cause => cases hanswer
    | ok _ =>
      have hafter := Setup.update_ok (h.current confidence rfl) (h.sampleSize_eq ▸ henough) hnonneg
        hupdate
      obtain ⟨hsame, hrequired⟩ := hafter
      cases hanswer
      refine ⟨⟨after, rfl, rfl, ?_, ?_, ?_, ?_⟩, ?_⟩
      · rw [hsame]
        exact h.items_eq
      · rw [hsame]
        exact h.sampleSize_eq
      · rw [hsame]
        exact h.limit_eq
      · rintro other ⟨⟩
        rw [hsame]
        exact Or.inr hrequired
      · rw [decide_eq_true_eq, Rule.Holds, ← h.items_eq, ← h.sampleSize_eq, hrequired]
        simp only [Except.ok.injEq, exists_eq_left']

/-- The rules of this library are followed as they are stated, whatever they remember. -/
theorem follows_holds (s : Stopping α) (items sampleSize : Nat) :
    Follows s items sampleSize fun inliers iteration =>
      s.rule.Holds items sampleSize inliers iteration := by
  have hready : ∀ t, Consulted sampleSize (s.start items sampleSize) t →
      ∃ setup, Ready s.rule items sampleSize t setup := by
    intro t ht
    induction ht with
    | start => exact ⟨_, start_ready s items sampleSize⟩
    | ask before enough answered ih =>
      obtain ⟨setup, hsetup⟩ := ih
      exact (hsetup.ask (Int.ofNat_le.mpr enough) (Int.natCast_nonneg _) answered).1
  intro t ht inliers iteration stops next henough hanswer
  obtain ⟨setup, hsetup⟩ := hready t ht
  exact (hsetup.ask (Int.ofNat_le.mpr henough) (Int.natCast_nonneg _) hanswer).2

end Stopping

namespace Fitting.Ransac

variable {μ δ α τ σ : Type} [Scalar α] [Summation α] [Stopping.Policy τ]
variable (family : Family μ δ α) (draw : Sampler σ) (settings : Settings α) (data : List δ)

/-- The end of at most the given number of iterations that are not broken off.  The mark tells
whether the policy ended them early. -/
inductive Search.Ends : Nat → Search μ α τ σ → Bool → Search μ α τ σ → Prop where
  | complete {s : Search μ α τ σ} : Ends 0 s false s
  | stop {n : Nat} {s next : Search μ α τ σ}
      (step : s.step family draw settings data = (.stop, next)) : Ends (n + 1) s true next
  | goOn {n : Nat} {s next t : Search μ α τ σ} {early : Bool}
      (step : s.step family draw settings data = (.goOn, next)) (rest : Ends n next early t) :
      Ends (n + 1) s early t

/-- A run that is not broken off ends early or at its limit. -/
theorem Search.run_eq_none_iff {n : Nat} {s t : Search μ α τ σ} :
    s.run family draw settings data n = (none, t) ↔
      ∃ early, Search.Ends family draw settings data n s early t := by
  constructor
  · intro h
    induction n generalizing s with
    | zero =>
      cases h
      exact ⟨false, .complete⟩
    | succ n ih =>
      rw [Search.run] at h
      rcases hstep : s.step family draw settings data with ⟨verdict, next⟩
      rw [hstep] at h
      cases verdict with
      | goOn =>
        obtain ⟨early, hrest⟩ := ih h
        exact ⟨early, .goOn hstep hrest⟩
      | stop =>
        cases h
        exact ⟨true, .stop hstep⟩
      | fault cause => cases h
  · rintro ⟨early, h⟩
    induction h with
    | complete => rfl
    | stop step => rw [Search.run, step]
    | goOn step _ ih =>
      rw [Search.run, step]
      exact ih

variable {family draw settings data} in
/-- A search that ends before its last iteration is ended by its policy. -/
theorem Search.Ends.early_of_lt {n : Nat} {s t : Search μ α τ σ} {early : Bool}
    (h : Search.Ends family draw settings data n s early t)
    (hlt : t.iterations < s.iterations + n) : early = true := by
  induction h with
  | complete => exact absurd hlt (Nat.lt_irrefl _)
  | stop => rfl
  | @goOn n s next t early step _ ih =>
    have hcount : next.iterations = s.iterations + 1 := by
      have hstep := Search.step_iterations family draw settings data s
      rwa [step] at hstep
    exact ih (by omega)

variable {family draw settings data} in
/-- A fit on enough items whose search is not broken off is decided by that search. -/
theorem fit_eq_conclude {state : State μ δ α τ σ} {s : Search μ α τ σ}
    (hmany : ¬ data.length < family.minItems)
    (hrun : (Search.start family state data).run family draw settings data
      settings.maxIterations = (none, s)) :
    fit family draw settings state data = conclude family settings state data s := by
  unfold Search.start at hrun
  unfold fit
  simp only [if_neg hmany, hrun]

/-- An iteration, counted from one, that yields a model. -/
def Yields (models : List (Option μ)) (i : Nat) : Prop :=
  ∃ j m, models[j]? = some (some m) ∧ i = j + 1

/-- The best candidate after a number of iterations has enough inliers, and a rule holds for it. -/
def MayEnd (rule : Nat → Nat → Prop) (models : List (Option μ)) (i : Nat) : Prop :=
  ∃ best, kept family settings data (models.take i) = some best ∧
    family.minItems ≤ best.inliers ∧ rule best.inliers i

variable {family draw settings data}

/-- What an iteration yields does not depend on later ones. -/
theorem yields_append_of_le {models : List (Option μ)} {outcome : Option μ} {i : Nat}
    (hi : i ≤ models.length) : Yields (models ++ [outcome]) i ↔ Yields models i := by
  unfold Yields
  refine exists_congr fun j => exists_congr fun m => and_congr_left fun hj => ?_
  rw [List.getElem?_append_left (by omega)]

/-- The last iteration yields a model if there is one. -/
theorem yields_append_length {models : List (Option μ)} {outcome : Option μ} :
    Yields (models ++ [outcome]) (models.length + 1) ↔ ∃ m, outcome = some m := by
  constructor
  · rintro ⟨j, m, hm, hj⟩
    obtain rfl : j = models.length := by omega
    rw [List.getElem?_concat_length, Option.some.injEq] at hm
    exact ⟨m, hm⟩
  · rintro ⟨m, rfl⟩
    exact ⟨models.length, m, List.getElem?_concat_length, rfl⟩

/-- Whether an iteration may be the last one does not depend on later ones. -/
theorem mayEnd_append_of_le {rule : Nat → Nat → Prop} {models : List (Option μ)}
    {outcome : Option μ} {i : Nat} (hi : i ≤ models.length) :
    MayEnd family settings data rule (models ++ [outcome]) i ↔
      MayEnd family settings data rule models i := by
  unfold MayEnd
  rw [List.take_append_of_le_length hi]

/-- After its last iteration a search may end exactly if the rule holds for its best candidate. -/
theorem Search.Reached.mayEnd_iff {state : State μ δ α τ σ} {models : List (Option μ)}
    {s : Search μ α τ σ} (h : s.Reached family draw settings data state models)
    (rule : Nat → Nat → Prop) :
    MayEnd family settings data rule models models.length ↔
      ∃ best, s.best = some best ∧ family.minItems ≤ best.inliers ∧
        rule best.inliers s.iterations := by
  unfold MayEnd
  rw [List.take_length, ← h.best_eq, h.count_eq]

section Rules

variable (family draw settings data)

/-- A search whose policy has answered whenever it was asked, and that no iteration was to end. -/
structure Search.Undecided (rule : Nat → Nat → Prop) (state : State μ δ α τ σ)
    (models : List (Option μ)) (s : Search μ α τ σ) : Prop where
  reached : s.Reached family draw settings data state models
  consulted : Stopping.Consulted family.minItems
    (Stopping.Policy.start state.stopping data.length family.minItems) s.stopping
  not_mayEnd : ∀ i, Yields models i → ¬ MayEnd family settings data rule models i

/-- A search that its last iteration was to end, and no iteration before. -/
structure Search.Decided (rule : Nat → Nat → Prop) (state : State μ δ α τ σ)
    (models : List (Option μ)) (s : Search μ α τ σ) : Prop where
  reached : s.Reached family draw settings data state models
  yields : Yields models models.length
  mayEnd : MayEnd family settings data rule models models.length
  not_mayEnd : ∀ i < models.length, Yields models i →
    ¬ MayEnd family settings data rule models i

variable {family draw settings data}
variable {state : State μ δ α τ σ} {rule : Nat → Nat → Prop} {models : List (Option μ)}
variable {s next t : Search μ α τ σ}

/-- A search has not been decided at its start. -/
theorem Search.start_undecided :
    (Search.start family state data).Undecided family draw settings data rule state [] := by
  refine ⟨Search.start_reached, .start, ?_⟩
  rintro i ⟨j, m, hm, -⟩
  cases hm

/-- An iteration that is not broken off advances a search, and consults its policy. -/
theorem Search.advances_of_step {verdict : Verdict}
    (hstep : s.step family draw settings data = (verdict, next))
    (hwhole : ∀ cause, verdict ≠ .fault cause) :
    ∃ outcome, s.Advances family draw settings data outcome next ∧
      Search.Consults family s.stopping next outcome verdict := by
  rcases Search.step_cases family draw settings data s with
    ⟨k, -, cause, -, hfault⟩ | ⟨outcome, other, after, hadvances, hconsults, hother⟩
  · rw [hstep] at hfault
    exact absurd hfault (hwhole cause)
  · rw [hstep, Prod.mk.injEq] at hother
    obtain ⟨rfl, rfl⟩ := hother
    exact ⟨outcome, hadvances, hconsults⟩

/-- What an earlier iteration says about the end of a search stays as it is. -/
theorem Search.Undecided.not_mayEnd_append
    (h : s.Undecided family draw settings data rule state models) (outcome : Option μ) {i : Nat}
    (hi : i ≤ models.length) (hyields : Yields (models ++ [outcome]) i) :
    ¬ MayEnd family settings data rule (models ++ [outcome]) i := by
  rw [mayEnd_append_of_le hi]
  exact h.not_mayEnd i ((yields_append_of_le hi).mp hyields)

variable (hfollows : Stopping.Follows state.stopping data.length family.minItems rule)

include hfollows in
/-- A search that goes on stays undecided. -/
theorem Search.Undecided.goOn (h : s.Undecided family draw settings data rule state models)
    (hstep : s.step family draw settings data = (.goOn, next)) :
    ∃ outcome, next.Undecided family draw settings data rule state (models ++ [outcome]) := by
  obtain ⟨outcome, hadvances, hconsults⟩ := Search.advances_of_step hstep (by simp)
  have hreached := h.reached.advance hadvances
  have hlength : (models ++ [outcome]).length = models.length + 1 := by
    rw [List.length_append, List.length_singleton]
  have hlast := hreached.mayEnd_iff rule
  rw [hlength] at hlast
  refine ⟨outcome, hreached, ?_, ?_⟩
  · cases hconsults with
    | nothing kept => exact kept ▸ h.consulted
    | tooFew _ _ kept => exact kept ▸ h.consulted
    | goOn _ enough answer => exact .ask h.consulted enough answer
  · intro i hyields
    have hi : i ≤ models.length + 1 := by
      obtain ⟨j, m, hm, rfl⟩ := hyields
      have hj := (List.getElem?_eq_some_iff.mp hm).1
      omega
    rcases Nat.lt_or_eq_of_le hi with hearlier | rfl
    · exact h.not_mayEnd_append outcome (Nat.le_of_lt_succ hearlier) hyields
    -- The last iteration went on: without a model, without enough inliers, or against the rule.
    rw [hlast]
    rintro ⟨best, hbest, henough, hrule⟩
    cases hconsults with
    | nothing =>
      obtain ⟨m, hm⟩ := yields_append_length.mp hyields
      cases hm
    | tooFew best_eq few =>
      rw [hbest, Option.some.injEq] at best_eq
      exact Nat.not_lt.mpr henough (best_eq ▸ few)
    | goOn best_eq enough answer =>
      rw [hbest, Option.some.injEq] at best_eq
      subst best_eq
      exact Bool.false_ne_true ((hfollows _ h.consulted _ _ _ _ henough answer).mpr hrule)

include hfollows in
/-- A search that its policy stops is decided by its last iteration. -/
theorem Search.Undecided.stop (h : s.Undecided family draw settings data rule state models)
    (hstep : s.step family draw settings data = (.stop, next)) :
    ∃ outcome, next.Decided family draw settings data rule state (models ++ [outcome]) := by
  obtain ⟨outcome, hadvances, hconsults⟩ := Search.advances_of_step hstep (by simp)
  have hreached := h.reached.advance hadvances
  have hlength : (models ++ [outcome]).length = models.length + 1 := by
    rw [List.length_append, List.length_singleton]
  cases hconsults with
  | stop hbest henough hanswer =>
    refine ⟨_, hreached, ?_, ?_, ?_⟩
    · rw [hlength]
      exact yields_append_length.mpr ⟨_, rfl⟩
    · rw [hreached.mayEnd_iff]
      exact ⟨_, hbest, henough, (hfollows _ h.consulted _ _ _ _ henough hanswer).mp rfl⟩
    · intro i hi
      rw [hlength] at hi
      exact h.not_mayEnd_append _ (Nat.le_of_lt_succ hi)

include hfollows in
/-- An undecided search stays undecided through all iterations that are left, or the policy ends it
with the iteration that decides it.  The induction is on the way in which the iterations end. -/
theorem Search.Undecided.ends {n : Nat} {early : Bool}
    (hends : Search.Ends family draw settings data n s early t)
    (h : s.Undecided family draw settings data rule state models) :
    ∃ found, found.length ≤ models.length + n ∧
      ((early = true ∧ t.Decided family draw settings data rule state found) ∨
        early = false ∧ found.length = models.length + n ∧
          t.Undecided family draw settings data rule state found) := by
  induction hends generalizing models with
  | complete => exact ⟨models, Nat.le_refl _, Or.inr ⟨rfl, rfl, h⟩⟩
  | stop step =>
    obtain ⟨outcome, hdecided⟩ := h.stop hfollows step
    refine ⟨_, ?_, Or.inl ⟨rfl, hdecided⟩⟩
    rw [List.length_append, List.length_singleton]
    omega
  | goOn step _ ih =>
    obtain ⟨outcome, hundecided⟩ := h.goOn hfollows step
    obtain ⟨found, hlength, hfound⟩ := ih hundecided
    rw [List.length_append, List.length_singleton, Nat.add_assoc, Nat.add_comm 1] at hlength hfound
    exact ⟨found, hlength, hfound⟩

end Rules

end Fitting.Ransac

end Projectivity
