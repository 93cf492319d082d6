import Projectivity.Proofs.Exact.Confidence
import Projectivity.Proofs.Fitting.Draws
import Projectivity.Proofs.Fitting.Stopping

/-!
# Searches among items without errors

If every item agrees with every model that can come up, the first accepted sample ends
a search under an adaptive rule: all items are inliers, and with that ratio a single
sample is enough.  A refit changes the model, but never its consensus.
-/

set_option autoImplicit false

namespace Projectivity

namespace Stopping

/-- If all items are inliers, one sample is enough for every confidence. -/
theorem requiredIterations_one (confidence : ℝ) {sampleSize : ℤ} (h : 0 < sampleSize) :
    Fitting.requiredIterations confidence 1 sampleSize = .ok 1 := by
  unfold Fitting.requiredIterations
  rw [if_neg (not_le.mpr h)]
  simp

/-- An adaptive rule that has just been set up ends the search as soon as all items are inliers, and
accepts them. -/
theorem shouldStop_of_all {s : Stopping ℝ} {confidence : ℝ} (hrule : s.rule = .adaptive confidence)
    {items sampleSize iteration : ℤ} (hsize : 0 < sampleSize) (hitems : sampleSize ≤ items)
    (hiteration : 1 ≤ iteration) :
    ∃ next : Stopping ℝ, (s.start items sampleSize).shouldStop items iteration = (.ok true, next) ∧
      next.accepts items = .ok true := by
  have hzero : items ≠ 0 := by omega
  have hone : Fitting.iterationsFor confidence items items sampleSize = .ok 1 := by
    rw [Fitting.iterationsFor_of_items _ _ _ hzero, div_self (Int.cast_ne_zero.mpr hzero)]
    exact requiredIterations_one confidence hsize
  have hmemory : items ≠ -1 ∧ sampleSize ≤ items := ⟨by omega, hitems⟩
  refine ⟨⟨.adaptive confidence, some ⟨items, sampleSize, 1, items, 1⟩⟩, ?_, ?_⟩
  · simp only [start, shouldStop, hrule, Setup.update, Rule.limitFor, if_pos hmemory, hone,
      Except.map, hiteration, decide_true]
  · simp only [accepts, hitems, decide_true]

end Stopping

namespace Fitting

variable {μ δ σ : Type} {family : Family μ δ ℝ} {data : List δ} {threshold : Extended ℝ}
variable {good : μ → Prop}

/-- Models with which all items agree, whichever of them is estimated again. -/
structure Perfect (family : Family μ δ ℝ) (data : List δ) (threshold : Extended ℝ)
    (good : μ → Prop) : Prop where
  agrees : ∀ m, good m → ∀ d ∈ data, agrees family threshold m d = true
  refit : ∀ m next, good m → family.estimate m data = some next → good next

/-- A good model classifies all items of perfect data as inliers. -/
theorem Perfect.classify_eq (h : Perfect family data threshold good) {m : μ} (hm : good m) :
    classify family m data threshold = data.map fun _ => true := by
  rw [classify_eq_map]
  exact List.map_congr_left fun d hd => h.agrees m hm d hd

/-- All items are marked by a mask of marks. -/
theorem marks_all (data : List δ) : marks (data.map fun _ => true) = data.length := by
  rw [marks_map]
  simp

/-- A mask of marks leaves no outliers. -/
theorem partition_all (data : List δ) : partition data (data.map fun _ => true) = (data, []) := by
  rw [partition_map]
  simp

/-- A refit of a good model returns a good model, and its mask still marks all items. -/
theorem Perfect.refit_good (h : Perfect family data threshold good)
    (hmany : family.minItems ≤ data.length) (rounds : ℕ) {m : μ} (hm : good m) :
    good (Fitting.refit family data threshold rounds m (data.map fun _ => true)).1 ∧
      (Fitting.refit family data threshold rounds m (data.map fun _ => true)).2 =
        data.map fun _ => true := by
  cases rounds with
  | zero => exact ⟨hm, rfl⟩
  | succ rounds =>
    unfold Fitting.refit
    rw [partition_all]
    cases hnext : family.estimate m data with
    | none => exact ⟨hm, rfl⟩
    | some next =>
      have hgood := h.refit m next hm hnext
      simp only [h.classify_eq hgood, marks_all, if_neg (not_lt.mpr hmany), beq_self_eq_true,
        if_true]
      exact ⟨hgood, trivial⟩

namespace Ransac

variable {draw : Sampler σ} {settings : Settings ℝ} {state : State μ δ ℝ (Stopping ℝ) σ}

/-- The candidate of a good model marks all items. -/
theorem candidate_of_good (h : Perfect family data settings.threshold good) {m : μ} (hm : good m) :
    (Candidate.of family data settings.threshold m).mask = (data.map fun _ => true) ∧
      (Candidate.of family data settings.threshold m).inliers = data.length := by
  have hsound := Candidate.of_sound family data settings.threshold m
  have hmask := hsound.mask_eq.trans (h.classify_eq hm)
  refine ⟨hmask, ?_⟩
  rw [hsound.inliers_eq, hmask, marks_all]

/-- The search of a fit among such items ends in the iteration of the first accepted draw. -/
theorem run_of_perfect (h : Perfect family data settings.threshold good) {confidence : ℝ}
    (hrule : state.stopping.rule = .adaptive confidence) (hmin : 0 < family.minItems)
    (hmany : family.minItems ≤ data.length) {k : ℕ} {found : μ}
    (hfirst : FirstAccepted draw family data state.model state.sampler k found)
    (hk : k < settings.maxIterations * settings.sampleTries) (hfound : good found) :
    ∃ s, (Search.start family state data).run family draw settings data settings.maxIterations =
        (none, s) ∧
      s.best = some (Candidate.of family data settings.threshold found) ∧
      s.iterations = k / settings.sampleTries + 1 ∧
      s.stopping.accepts data.length = .ok true := by
  have hinliers := (candidate_of_good h hfound).2
  have hiteration : 1 ≤ ((k / settings.sampleTries + 1 : ℕ) : ℤ) := by
    rw [Nat.cast_add_one]
    exact le_add_of_nonneg_left (Int.natCast_nonneg _)
  obtain ⟨policy, hstop, haccepts⟩ := Stopping.shouldStop_of_all hrule
    (Int.natCast_pos.mpr hmin) (Int.ofNat_le.mpr hmany) hiteration
  have hconsider : ((Search.start family state data).skip
      (drawn draw data.length family.minItems state.sampler (k + 1))
        (k / settings.sampleTries + 1)).consider family
          (Candidate.of family data settings.threshold found) =
      (.stop, ⟨drawn draw data.length family.minItems state.sampler (k + 1), found,
        some (Candidate.of family data settings.threshold found), policy,
        k / settings.sampleTries + 1⟩) := by
    have hpolicy : Stopping.Policy.shouldStop
        (Stopping.Policy.start state.stopping data.length family.minItems) data.length
          ((k / settings.sampleTries + 1 : ℕ) : ℤ) = (.ok true, policy) := hstop
    unfold Search.consider
    simp only [Search.start, Search.skip, Candidate.better, hinliers, if_neg (not_lt.mpr hmany),
      Nat.zero_add, hpolicy]
    rfl
  exact ⟨_, Search.run_of_stop settings hfirst hk hconsider, rfl, rfl, haccepts⟩

/-- A good model is settled to a good model, and its mask still marks all items. -/
theorem settle_of_good (h : Perfect family data settings.threshold good)
    (hmany : family.minItems ≤ data.length) {m : μ} (hm : good m) :
    let best := Candidate.of family data settings.threshold m
    good (settle family settings data best).1 ∧
      (settle family settings data best).2 = data.map fun _ => true := by
  intro best
  have hmask := (candidate_of_good h hm).1
  unfold settle
  split
  · have hrefit := h.refit_good hmany refitRounds hm
    rw [← hmask] at hrefit
    exact ⟨hrefit.1, hrefit.2.trans hmask⟩
  · exact ⟨hm, hmask⟩

variable (state)

/-- A search among items that agree with every good model ends with the first accepted draw, if its
model is good.  It succeeds with all items as inliers and with a good model. -/
theorem fit_of_perfect (h : Perfect family data settings.threshold good) {confidence : ℝ}
    (hrule : state.stopping.rule = .adaptive confidence) (hmin : 0 < family.minItems)
    (hmany : family.minItems ≤ data.length) {k : ℕ} {found : μ}
    (hfirst : FirstAccepted draw family data state.model state.sampler k found)
    (hk : k < settings.maxIterations * settings.sampleTries) (hfound : good found) :
    (fit family draw settings state data).answer = .ok true ∧
      good (fit family draw settings state data).state.model ∧
      (fit family draw settings state data).state.summary =
        some ⟨true, data, [], k / settings.sampleTries + 1, settings.threshold,
          .count data.length⟩ := by
  obtain ⟨s, hrun, hbest, hiterations, haccepts⟩ :=
    run_of_perfect h hrule hmin hmany hfirst hk hfound
  obtain ⟨hgood, hsettled⟩ := settle_of_good h hmany hfound
  have hinliers := (candidate_of_good h hfound).2
  have hmarks := marks_all data
  have haccepted : Stopping.Policy.accepts s.stopping (marks (data.map fun _ => true)) =
      .ok true := by
    rw [hmarks]
    exact haccepts
  have hfit : fit family draw settings state data =
      ⟨state.accepted settings data s
        (settle family settings data (Candidate.of family data settings.threshold found)),
        .ok true, []⟩ := by
    unfold Search.start at hrun
    simp only [fit, if_neg (not_lt.mpr hmany), hrun, conclude, hbest, hinliers, hsettled,
      haccepted, State.accepted, State.after]
  rw [hfit]
  refine ⟨rfl, hgood, ?_⟩
  simp only [State.accepted, hsettled, partition_all, hmarks, hiterations]

end Ransac

end Fitting

end Projectivity
