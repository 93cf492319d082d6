import Projectivity.Fitting.Stopping
import Projectivity.Proofs.Fitting.Draws
import Projectivity.Proofs.Fitting.Ransac

/-!
# What a stopping rule remembers

A rule that has been set up stays set up, and asking it never changes which rule it is.
Setting it up forgets whatever it remembered, so that a search depends on the rule
alone and its verdict on the outcome of a search is always given.
-/

set_option autoImplicit false

namespace Projectivity

namespace Fitting

variable {α : Type} [Scalar α] {confidence : α} {inliers items sampleSize k : Int}

/-- An integer that is within the range of numbers is the scalar that it is rounded to. -/
theorem scalarOf_eq_ok {n : Int} {x : α} :
    scalarOf n = .ok x ↔ Scalar.isFinite (Scalar.ofInt n : α) = true ∧ x = Scalar.ofInt n := by
  unfold scalarOf
  split
  · rename_i hfinite
    rw [Except.ok.injEq]
    exact ⟨fun h => ⟨hfinite, h.symm⟩, fun h => h.2.symm⟩
  · rename_i hinfinite
    exact ⟨nofun, fun h => absurd h.1 hinfinite⟩

/-- The iterations for a number of inliers are those for the part of the items that it is. -/
theorem requiredIterations_of_iterationsFor
    (h : iterationsFor confidence inliers items sampleSize = .ok k) :
    requiredIterations confidence (Scalar.ofInt inliers / Scalar.ofInt items) sampleSize =
      .ok k := by
  simp only [iterationsFor, inlierPart, Result.bind_eq_ok, scalarOf_eq_ok] at h
  obtain ⟨part, ⟨_, ⟨-, rfl⟩, _, ⟨-, rfl⟩, hpart⟩, h⟩ := h
  split at hpart
  · cases hpart
  · cases hpart
    exact h

/-- If there are items, and not too many for a scalar, the part of them that are inliers is known. -/
theorem iterationsFor_eq (hempty : items ≠ 0)
    (hitems : Scalar.isFinite (Scalar.ofInt items : α) = true)
    (hinliers : Scalar.isFinite (Scalar.ofInt inliers : α) = true) :
    iterationsFor confidence inliers items sampleSize =
      requiredIterations confidence (Scalar.ofInt inliers / Scalar.ofInt items) sampleSize := by
  simp only [iterationsFor, inlierPart, scalarOf, if_pos hitems, if_pos hinliers, if_neg hempty]
  rfl

end Fitting

namespace Stopping

variable {α : Type}

/-- A rule that is set up accepts a number of inliers or does not, and never refuses to answer. -/
theorem accepts_ne_error {s : Stopping α} (h : s.setup ≠ none) (inliers : Int) (cause : Fault) :
    s.accepts inliers ≠ .error cause := by
  unfold accepts
  split
  · contradiction
  all_goals simp

variable [Scalar α]

/-- A question does not change the rule. -/
theorem shouldStop_rule (s : Stopping α) (inliers iteration : Int) :
    (s.shouldStop inliers iteration).2.rule = s.rule := by
  unfold shouldStop
  split <;> rfl

/-- A rule is set up from scratch, so it keeps nothing but the rule. -/
theorem start_congr {s t : Stopping α} (h : s.rule = t.rule) (items sampleSize : Int) :
    s.start items sampleSize = t.start items sampleSize := by
  unfold start
  simp only [h]

/-- A rule that is set up for a number of items and a sample size, whatever it remembers. -/
structure SetUp (rule : Rule α) (items sampleSize : Int) (s : Stopping α) : Prop where
  rule_eq : s.rule = rule
  setup_eq : ∃ lastInliers required, s.setup =
    some ⟨items, sampleSize, rule.limitFor items, lastInliers, required⟩

/-- A rule is set up after its setup. -/
theorem start_setUp (s : Stopping α) (items sampleSize : Int) :
    SetUp s.rule items sampleSize (s.start items sampleSize) :=
  ⟨rfl, -1, Fitting.iterationCap, rfl⟩

/-- Asking a rule changes nothing but what it remembers. -/
theorem SetUp.shouldStop {rule : Rule α} {items sampleSize : Int} {s : Stopping α}
    (h : SetUp rule items sampleSize s) (inliers iteration : Int) :
    SetUp rule items sampleSize (s.shouldStop inliers iteration).2 := by
  refine ⟨(s.shouldStop_rule inliers iteration).trans h.rule_eq, ?_⟩
  obtain ⟨lastInliers, required, hsetup⟩ := h.setup_eq
  unfold Stopping.shouldStop
  rw [h.rule_eq, hsetup]
  cases rule with
  | bestFit => exact ⟨lastInliers, required, hsetup⟩
  | count limit => exact ⟨lastInliers, required, hsetup⟩
  | share percentage => exact ⟨lastInliers, required, hsetup⟩
  | adaptive confidence =>
    simp only [Setup.update]
    split
    · split <;> exact ⟨_, _, rfl⟩
    · exact ⟨_, _, rfl⟩

/-- The number of inliers from which on a rule accepts a model. -/
def Rule.least (rule : Rule α) (items sampleSize : Int) : Int :=
  match rule with
  | .bestFit | .adaptive _ => sampleSize
  | .count _ | .share _ => max (rule.limitFor items) sampleSize

/-- A rule that is set up accepts exactly its least number of inliers and more. -/
theorem SetUp.accepts_iff {rule : Rule α} {items sampleSize : Int} {s : Stopping α}
    (h : SetUp rule items sampleSize s) (inliers : Int) :
    s.accepts inliers = .ok true ↔ rule.least items sampleSize ≤ inliers := by
  obtain ⟨_, _, hsetup⟩ := h.setup_eq
  have haccepts : s.accepts inliers = .ok (decide (rule.least items sampleSize ≤ inliers)) := by
    unfold accepts
    rw [h.rule_eq, hsetup]
    cases rule <;> rfl
  rw [haccepts, Except.ok.injEq, decide_eq_true_eq]

/-- More inliers are acceptable if fewer are. -/
theorem SetUp.accepts_mono {rule : Rule α} {items sampleSize inliers more : Int}
    {s t : Stopping α} (hs : SetUp rule items sampleSize s) (ht : SetUp rule items sampleSize t)
    (hmore : inliers ≤ more) (haccepts : s.accepts inliers = .ok true) :
    t.accepts more = .ok true := by
  rw [hs.accepts_iff] at haccepts
  exact (ht.accepts_iff more).mpr (Int.le_trans haccepts hmore)

/-- An adaptive rule has no number of required iterations for a number of inliers among the
items. -/
def Rule.Undefined (rule : Rule α) (items sampleSize : Nat) : Prop :=
  ∃ confidence, rule = .adaptive confidence ∧ ∃ inliers ≤ items, sampleSize ≤ inliers ∧ ∃ cause,
    Fitting.iterationsFor confidence inliers items sampleSize = .error cause

/-- A rule gives no answer only where its number of required iterations is undefined. -/
theorem SetUp.undefined {rule : Rule α} {items sampleSize inliers : Nat} {s : Stopping α}
    (h : SetUp rule items sampleSize s) (henough : sampleSize ≤ inliers) (hmost : inliers ≤ items)
    {iteration : Int} {cause : Fault} (hfault : (s.shouldStop inliers iteration).1 = .error cause) :
    rule.Undefined items sampleSize := by
  obtain ⟨lastInliers, required, hsetup⟩ := h.setup_eq
  unfold Stopping.shouldStop at hfault
  rw [h.rule_eq, hsetup] at hfault
  cases rule with
  | bestFit => cases hfault
  | count limit => cases hfault
  | share percentage => cases hfault
  | adaptive confidence =>
    refine ⟨confidence, rfl, inliers, hmost, henough, ?_⟩
    simp only [Setup.update] at hfault
    split at hfault
    · cases hrequired : Fitting.iterationsFor confidence inliers items sampleSize with
      | ok k =>
        rw [hrequired] at hfault
        cases hfault
      | error other => exact ⟨other, rfl⟩
    · cases hfault

/-- Scalars among which the required iterations are known for a confidence between zero and one, if
the number of items is a scalar. -/
class Reckoned (α : Type) [Scalar α] : Prop where
  exists_required : ∀ {confidence : α} {inliers items sampleSize : Nat}, 0 < sampleSize →
    0 < confidence → confidence < 1 → sampleSize ≤ inliers → inliers ≤ items →
    Scalar.isFinite (Scalar.ofInt items : α) = true →
    ∃ k, Fitting.iterationsFor confidence inliers items sampleSize = .ok k

/-- What an adaptive rule needs in order to know its required iterations: a confidence between zero
and one, samples that hold an item, and a number of items that is a scalar. -/
def Rule.Answers (rule : Rule α) (items sampleSize : Nat) : Prop :=
  ∀ confidence, rule = .adaptive confidence → 0 < confidence ∧ confidence < 1 ∧ 0 < sampleSize ∧
    Scalar.isFinite (Scalar.ofInt items : α) = true

/-- A rule that answers is not undefined. -/
theorem Rule.Answers.not_undefined [Reckoned α] {rule : Rule α} {items sampleSize : Nat}
    (h : rule.Answers items sampleSize) : ¬ rule.Undefined items sampleSize := by
  rintro ⟨confidence, hrule, inliers, hmost, henough, cause, hfault⟩
  obtain ⟨hpos, hlt, hsize, hitems⟩ := h confidence hrule
  obtain ⟨k, hrequired⟩ := Reckoned.exists_required hsize hpos hlt henough hmost hitems
  rw [hrequired] at hfault
  cases hfault

/-- A rule that asks for a number of inliers ends a search that has as many, and accepts them. -/
theorem shouldStop_of_count {s : Stopping α} {limit sampleSize inliers : Int}
    (hrule : s.rule = .count limit) (hlimit : limit ≤ inliers) (hsize : sampleSize ≤ inliers)
    (items iteration : Int) :
    (s.start items sampleSize).shouldStop inliers iteration =
        (.ok true, s.start items sampleSize) ∧
      (s.start items sampleSize).accepts inliers = .ok true := by
  have hmax : max limit sampleSize ≤ inliers := Int.max_le.mpr ⟨hlimit, hsize⟩
  simp only [shouldStop, accepts, start, hrule, Rule.limitFor, Setup.effectiveLimit, hmax,
    decide_true, and_self]

end Stopping

namespace Fitting.Ransac

variable {μ δ α σ : Type} [Scalar α] [Summation α]
variable (family : Family μ δ α) (draw : Sampler σ) (settings : Settings α)
variable (state : State μ δ α (Stopping α) σ) (data : List δ)

/-- A search keeps its rule set up for its items. -/
theorem search_setUp (n : Nat) : Stopping.SetUp state.stopping.rule data.length family.minItems
    ((Search.start family state data).run family draw settings data n).2.stopping :=
  Search.run_stopping family draw settings data
    (fun t : Stopping α => Stopping.SetUp state.stopping.rule data.length family.minItems t)
    (fun _ inliers iteration ht => ht.shouldStop inliers iteration) n
    (Search.start family state data)
    (Stopping.start_setUp state.stopping data.length family.minItems)

/-- A search does not change the rule. -/
theorem search_rule {outcome : Option Fault} {s : Search μ α (Stopping α) σ}
    (hrun : (Search.start family state data).run family draw settings data
      settings.maxIterations = (outcome, s)) :
    s.stopping.rule = state.stopping.rule := by
  have hsetUp := search_setUp family draw settings state data settings.maxIterations
  rw [hrun] at hsetUp
  exact hsetUp.rule_eq

/-- A search leaves the rule set up. -/
theorem search_setup {outcome : Option Fault} {s : Search μ α (Stopping α) σ}
    (hrun : (Search.start family state data).run family draw settings data
      settings.maxIterations = (outcome, s)) :
    s.stopping.setup ≠ none := by
  have hsetUp := search_setUp family draw settings state data settings.maxIterations
  rw [hrun] at hsetUp
  obtain ⟨_, _, hsetup⟩ := hsetUp.setup_eq
  rw [hsetup]
  exact Option.some_ne_none _

variable {family draw settings state data}

/-- Under a rule that asks for a number of inliers, a search ends with its first accepted draw if
the model has that many.  Without refits that model is the one that is found. -/
theorem fit_of_count {limit : Int} (hrule : state.stopping.rule = .count limit)
    (hmany : family.minItems ≤ data.length) {k : Nat} {found : μ}
    (hfirst : FirstAccepted draw family data state.model state.sampler k found)
    (hk : k < settings.maxIterations * settings.sampleTries)
    (hlimit : limit ≤ marks (classify family found data settings.threshold))
    (henough : family.minItems ≤ marks (classify family found data settings.threshold))
    (hrefits : settings.refits = false) :
    ∃ s, fit family draw settings state data =
      ⟨state.accepted settings data s (found, classify family found data settings.threshold),
        .ok true, []⟩ := by
  have hsound := Candidate.of_sound family data settings.threshold found
  have hmask : (Candidate.of family data settings.threshold found).mask =
      classify family found data settings.threshold := hsound.mask_eq
  have hinliers := hsound.inliers_eq.trans (congrArg marks hmask)
  obtain ⟨hstop, haccepts⟩ := Stopping.shouldStop_of_count hrule hlimit
    (Int.ofNat_le.mpr henough) data.length (k / settings.sampleTries + 1 : Nat)
  let policy := Stopping.Policy.start state.stopping data.length family.minItems
  have hpolicy : Stopping.Policy.shouldStop policy
      (marks (classify family found data settings.threshold)) (k / settings.sampleTries + 1 : Nat) =
        (.ok true, policy) := hstop
  have hdecides : Stopping.Policy.accepts policy
      (marks (classify family found data settings.threshold)) = .ok true := haccepts
  let s : Search μ α (Stopping α) σ :=
    ⟨drawn draw data.length family.minItems state.sampler (k + 1), found,
      some (Candidate.of family data settings.threshold found), policy,
      k / settings.sampleTries + 1⟩
  have hconsider : ((Search.start family state data).skip s.sampler s.iterations).consider family
      (Candidate.of family data settings.threshold found) = (.stop, s) := by
    unfold Search.consider
    simp only [Search.start, Search.skip, Candidate.better, hinliers,
      if_neg (Nat.not_lt.mpr henough), Nat.zero_add, s]
    rw [hpolicy]
    rfl
  have hrun := Search.run_of_stop settings hfirst hk hconsider
  refine ⟨s, ?_⟩
  unfold Search.start at hrun
  simp only [fit, if_neg (Nat.not_lt.mpr hmany), hrun, conclude, s, hinliers,
    if_neg (Nat.not_lt.mpr henough), settle, hrefits, hmask, Bool.false_eq_true, if_false]
  rw [hdecides]
  rfl

end Fitting.Ransac

end Projectivity
