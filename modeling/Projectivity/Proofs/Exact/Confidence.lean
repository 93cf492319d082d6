import Mathlib.Analysis.SpecialFunctions.Log.Basic
import Projectivity.Proofs.Exact.Scalar
import Projectivity.Proofs.Fitting.Consultation
import Projectivity.Proofs.Fitting.Selection

/-!
# The confidence of an early end

In exact arithmetic, the number of iterations that an adaptive rule requires is enough
for its confidence: with a part `w` of inliers and samples of `s` items, all samples of
so many iterations hold an outlier with a probability of at most one minus the
confidence.  A search that the rule ends early has gone through that many iterations.
-/

set_option autoImplicit false

namespace Projectivity

namespace Fitting

section Required

variable {confidence w : ℝ} {size : ℕ}

/-- Every integer is a real number. -/
theorem scalarOf_eq (n : ℤ) : (scalarOf n : Result ℝ) = .ok n :=
  scalarOf_eq_ok.mpr ⟨rfl, (Exact.ofInt_eq n).symm⟩

/-- A probability has all powers. -/
theorem probabilityPower_eq (w : ℝ) (size : ℕ) : probabilityPower w size = .ok (w ^ size) := by
  have hpower : (Scalar.pow w size : ℝ) = w ^ size := zpow_natCast w size
  unfold probabilityPower
  rw [scalarOf_eq]
  simp only [bind, Except.bind, Exact.roundEven_intCast]
  rw [if_neg (by omega), hpower, if_neg]
  · rfl
  · exact Bool.false_ne_true

/-- The part of the items that are inliers is known if there are items. -/
theorem iterationsFor_of_items (confidence : ℝ) (inliers sampleSize : ℤ) {items : ℤ}
    (h : items ≠ 0) : iterationsFor confidence inliers items sampleSize =
      requiredIterations confidence (inliers / items : ℝ) sampleSize := by
  rw [iterationsFor_eq h rfl rfl, Exact.ofInt_eq, Exact.ofInt_eq]

/-- Between the edge cases, the required iterations are a quotient of logarithms that is rounded
up. -/
theorem requiredIterations_eq (hsize : 0 < size) (hpos : 0 ≤ w) (hle : w ≤ 1) :
    requiredIterations confidence w size =
      if w = 1 then .ok 1
      else if w ^ size ≤ probabilityFloor then .ok iterationCap
      else .ok (min (max 1 ⌈Real.log (1 - confidence) / Real.log (1 - w ^ size)⌉)
        iterationCap) := by
  have hfloor : (0 : ℝ) < probabilityFloor := Exact.decimal_pos Nat.one_pos 300
  have hclamp : min (max w 0) 1 = w := by rw [max_eq_left hpos, min_eq_left hle]
  unfold requiredIterations
  rw [if_neg (by omega)]
  simp only [Exact.larger_eq, Exact.smaller_eq, hclamp]
  by_cases hone : w = 1
  · rw [if_pos hone.ge, if_pos hone]
  have hlt : w < 1 := lt_of_le_of_ne hle hone
  rw [if_neg (not_le.mpr hlt), if_neg hone]
  by_cases hzero : w ≤ 0
  · have hnull : w = 0 := le_antisymm hzero hpos
    rw [if_pos hzero, if_pos]
    rw [hnull, zero_pow hsize.ne']
    exact hfloor.le
  rw [if_neg hzero, probabilityPower_eq]
  simp only [bind, Except.bind]
  by_cases hsmall : w ^ size ≤ probabilityFloor
  · rw [if_pos hsmall, if_pos hsmall]
    rfl
  rw [if_neg hsmall, if_neg hsmall]
  have hdecay : Real.log (1 - w ^ size) < 0 := by
    refine Real.log_neg (sub_pos.mpr (pow_lt_one₀ hpos hlt hsize.ne')) (sub_lt_self 1 ?_)
    exact pow_pos (not_le.mp hzero) size
  have hlog : ∀ x : ℝ, Scalar.log1p (-x) = Real.log (1 - x) := fun x => rfl
  rw [hlog, hlog, if_neg (not_le.mpr hdecay)]
  rfl

/-- The required iterations are known among the real numbers. -/
instance : Stopping.Reckoned ℝ where
  exists_required {confidence inliers items sampleSize} hsize _ _ henough hmost _ := by
    rw [iterationsFor_of_items _ _ _ (by omega), Int.cast_natCast, Int.cast_natCast,
      requiredIterations_eq hsize (by positivity)
        (div_le_one_of_le₀ (Nat.cast_le.mpr hmost) (Nat.cast_nonneg _))]
    split
    · exact ⟨_, rfl⟩
    · split <;> exact ⟨_, rfl⟩

/-- So many samples are enough for a confidence exactly if they are not fewer than the quotient of the
logarithms. -/
theorem pow_le_iff_quotient_le {good : ℝ} (hconfidence : confidence < 1) (hpos : 0 < good)
    (hlt : good < 1) (k : ℕ) :
    (1 - good) ^ k ≤ 1 - confidence ↔ Real.log (1 - confidence) / Real.log (1 - good) ≤ k := by
  have hbad : 0 < 1 - good := sub_pos.mpr hlt
  -- The logarithm of a part below one is negative, so multiplying by it turns the bound around.
  have hdecay : Real.log (1 - good) < 0 := Real.log_neg hbad (sub_lt_self 1 hpos)
  rw [div_le_iff_of_neg hdecay, ← Real.log_pow]
  exact (Real.log_le_log_iff (pow_pos hbad k) (sub_pos.mpr hconfidence)).symm

/-- The required iterations are enough for the confidence, as long as they are below their cap. -/
theorem pow_le_of_requiredIterations {required : ℤ} {iterations : ℕ} (hconfidence : confidence < 1)
    (hpos : 0 ≤ w) (hle : w ≤ 1)
    (hrequired : requiredIterations confidence w size = .ok required)
    (henough : required ≤ iterations) (hcap : (iterations : ℤ) < iterationCap) :
    (1 - w ^ size) ^ iterations ≤ 1 - confidence := by
  have hsize : 0 < size := by
    refine Nat.pos_of_ne_zero fun hzero => ?_
    rw [hzero] at hrequired
    cases hrequired
  rw [requiredIterations_eq hsize hpos hle] at hrequired
  by_cases hone : w = 1
  · rw [if_pos hone, Except.ok.injEq] at hrequired
    -- Without outliers no sample holds one, but only if a sample has been drawn.
    have hiterations : iterations ≠ 0 := by omega
    rw [hone, one_pow, sub_self, zero_pow hiterations]
    exact sub_nonneg.mpr hconfidence.le
  rw [if_neg hone] at hrequired
  by_cases hsmall : w ^ size ≤ probabilityFloor
  · rw [if_pos hsmall, Except.ok.injEq] at hrequired
    omega
  rw [if_neg hsmall, Except.ok.injEq] at hrequired
  have hquotient : ⌈Real.log (1 - confidence) / Real.log (1 - w ^ size)⌉ ≤ iterations := by omega
  have hgood : 0 < w ^ size :=
    lt_of_lt_of_le (Exact.decimal_pos Nat.one_pos 300) (not_le.mp hsmall).le
  have hlt : w ^ size < 1 := pow_lt_one₀ hpos (lt_of_le_of_ne hle hone) hsize.ne'
  exact (pow_le_iff_quotient_le hconfidence hgood hlt iterations).mpr
    (by exact_mod_cast Int.ceil_le.mp hquotient)

end Required

namespace Ransac

variable {μ δ σ : Type} (family : Family μ δ ℝ) (draw : Sampler σ) (settings : Settings ℝ)
variable (state : State μ δ ℝ (Stopping ℝ) σ) (data : List δ)

/-- A search that an adaptive rule ends early has enough inliers, and so many iterations that all
of their samples hold an outlier with a probability of at most one minus the confidence. -/
theorem confidence_of_early_end {confidence : ℝ}
    (hrule : state.stopping.rule = .adaptive confidence) (hconfidence : confidence < 1)
    (hmax : settings.maxIterations < 10 ^ 9) {s : Search μ ℝ (Stopping ℝ) σ} {early : Bool}
    (hends : Search.Ends family draw settings data settings.maxIterations
      (Search.start family state data) early s)
    (hearly : early = true ∨ s.iterations < settings.maxIterations) :
    (family.minItems ≤ data.length →
        fit family draw settings state data = conclude family settings state data s) ∧
      ∃ best, s.best = some best ∧ family.minItems ≤ best.inliers ∧
        (1 - ((best.inliers : ℝ) / data.length) ^ family.minItems) ^ s.iterations ≤
          1 - confidence := by
  have hfollows := Stopping.follows_holds state.stopping data.length family.minItems
  have hrun := (Search.run_eq_none_iff family draw settings data).mpr ⟨early, hends⟩
  have hstopped : early = true := by
    refine hearly.elim id fun hlt => hends.early_of_lt ?_
    rwa [Search.start, Nat.zero_add]
  refine ⟨fun hmany => fit_eq_conclude (Nat.not_lt.mpr hmany) hrun, ?_⟩
  obtain ⟨models, hlength, ⟨-, hdecided⟩ | ⟨hcomplete, -⟩⟩ :=
    Search.Undecided.ends hfollows hends Search.start_undecided
  · obtain ⟨best, hbest, henough, hholds⟩ := (hdecided.reached.mayEnd_iff _).mp hdecided.mayEnd
    refine ⟨best, hbest, henough, ?_⟩
    rw [hrule] at hholds
    obtain ⟨required, hrequired, hle⟩ := hholds
    have hinliers : best.inliers ≤ data.length :=
      ((search_sound family draw settings state data hrun).candidate best hbest).inliers_le
    have hcap : (s.iterations : ℤ) < iterationCap := by
      have hbound := search_iterations_le family draw settings state data hrun
      have hcast : (s.iterations : ℤ) < 10 ^ 9 := by omega
      exact hcast
    simp only [Exact.ofInt_eq, Int.cast_natCast] at hrequired
    exact pow_le_of_requiredIterations hconfidence (by positivity)
      (div_le_one_of_le₀ (Nat.cast_le.mpr hinliers) (Nat.cast_nonneg _)) hrequired hle hcap
  · rw [hstopped] at hcomplete
    cases hcomplete

section Numbers

/-- Nine iterations of one sample each, without refit. -/
noncomputable def nineSamples : Settings ℝ := ⟨.zero, 9, 1, false⟩

/-- A fitter that searches until it is confident. -/
noncomputable def untilConfident (confidence : ℝ) : State Nat Nat ℝ (Stopping ℝ) Nat :=
  ⟨0, .ofRule (.adaptive confidence), 0, none⟩

/-- The one model that is found for the items four and seven. -/
noncomputable def four : Candidate Nat ℝ := Candidate.of (numbers ℝ) [4, 7] .zero 4

/-- An adaptive rule that remembers one inlier among two items and requires two iterations. -/
noncomputable def requiresTwo (confidence : ℝ) : Stopping ℝ :=
  ⟨.adaptive confidence, some ⟨2, 1, 1, 1, 2⟩⟩

/-- One of the items four and seven agrees with the model. -/
theorem four_inliers : four.inliers = 1 := by
  have hconsensus : consensus (numbers ℝ) [4, 7] .zero 4 = [4] := by
    have hfour : agrees (numbers ℝ) .zero 4 4 = true := decide_eq_true (le_refl (0 : ℝ))
    have hseven : agrees (numbers ℝ) .zero 4 7 = false := rfl
    simp only [consensus, List.filter_cons, hfour, hseven, if_true, List.filter_nil,
      Bool.false_eq_true, if_false]
  rw [four, Candidate.of_inliers, hconsensus]
  rfl

/-- With half of the items as inliers, a sample of one item is drawn twice for a confidence of three
quarters. -/
theorem requiredIterations_half : requiredIterations (3 / 4 : ℝ) (1 / 2) 1 = .ok 2 := by
  have hlog : Real.log (1 / 2) < 0 := Real.log_neg (by norm_num) (by norm_num)
  have hquotient : Real.log (1 - 3 / 4) / Real.log (1 - (1 / 2) ^ 1) = 2 := by
    rw [show (1 - 3 / 4 : ℝ) = (1 / 2) ^ 2 by norm_num, pow_one, sub_half, Real.log_pow,
      Nat.cast_ofNat, mul_div_assoc, div_self hlog.ne, mul_one]
  have hfloor : ¬ (1 / 2 : ℝ) ^ 1 ≤ probabilityFloor := by
    rw [probabilityFloor, Exact.decimal_eq, Nat.cast_one, pow_one, not_le]
    exact one_div_lt_one_div_of_lt two_pos (lt_of_lt_of_le (by norm_num)
      (pow_le_pow_right₀ (by norm_num : (1 : ℝ) ≤ 10) (Nat.le_of_ble_eq_true rfl : 1 ≤ 300)))
  have hrequired : requiredIterations (3 / 4 : ℝ) (1 / 2) (1 : ℕ) = _ :=
    requiredIterations_eq Nat.one_pos (by norm_num) (by norm_num)
  rw [if_neg (by norm_num), if_neg hfloor, hquotient, Int.ceil_ofNat] at hrequired
  exact hrequired

section Run

variable {p : ℝ}

/-- A rule that is asked about one inlier after its setup requires two iterations from then on. -/
theorem shouldStop_untilConfident (h : requiredIterations p (1 / 2) 1 = .ok 2) (iteration : ℤ) :
    ((untilConfident p).stopping.start 2 1).shouldStop 1 iteration =
      (.ok (decide (2 ≤ iteration)), requiresTwo p) := by
  have hhalf : iterationsFor p 1 2 1 = .ok 2 := by
    rw [iterationsFor_of_items p 1 1 two_ne_zero, Int.cast_one, Int.cast_ofNat]
    exact h
  simp [untilConfident, requiresTwo, Stopping.start, Stopping.shouldStop, Stopping.ofRule,
    Stopping.Setup.update, Stopping.Rule.limitFor, hhalf, Except.map]

/-- A rule that is asked about the same number of inliers again does not change. -/
theorem shouldStop_requiresTwo (iteration : ℤ) :
    (requiresTwo p).shouldStop 1 iteration = (.ok (decide (2 ≤ iteration)), requiresTwo p) := by
  simp [requiresTwo, Stopping.shouldStop, Stopping.Setup.update, Except.map]

/-- An iteration that finds the model, after it has not been found or has been found before. -/
theorem step_four (stops : Bool) {s : Search Nat ℝ (Stopping ℝ) Nat} {k : Nat}
    (hestimate : estimateFromSample (numbers ℝ) inTurn [4, 7] s.hypothesis 1 s.sampler =
      (.ok (some 4), k)) (hbest : Candidate.better s.best four = four)
    (hanswer : s.stopping.shouldStop 1 (s.iterations + 1 : ℕ) = (.ok stops, requiresTwo p)) :
    s.step (numbers ℝ) inTurn nineSamples [4, 7] = (if stops then .stop else .goOn,
      ⟨k, 4, some four, requiresTwo p, s.iterations + 1⟩) := by
  have henough : ¬ four.inliers < (numbers ℝ).minItems := by
    rw [four_inliers]
    exact Nat.lt_irrefl 1
  have hpolicy : Stopping.Policy.shouldStop s.stopping ((1 : ℕ) : ℤ) (s.iterations + 1 : ℕ) =
      (.ok stops, requiresTwo p) := hanswer
  have hstep : s.step (numbers ℝ) inTurn nineSamples [4, 7] =
      Search.consider (numbers ℝ) { s with sampler := k, iterations := s.iterations + 1 } four := by
    unfold Search.step
    rw [show nineSamples.sampleTries = 1 from rfl, hestimate]
    rfl
  rw [hstep]
  unfold Search.consider
  simp only [hbest, if_neg henough]
  rw [four_inliers, hpolicy]
  cases stops <;> rfl

/-- The search finds its model, then nothing, then the same model again, and is ended there. -/
theorem ends_untilConfident (h : requiredIterations p (1 / 2) 1 = .ok 2) :
    Search.Ends (numbers ℝ) inTurn nineSamples [4, 7] 9
      (Search.start (numbers ℝ) (untilConfident p) [4, 7]) true
      ⟨3, 4, some four, requiresTwo p, 3⟩ := by
  have hfirst : (Search.start (numbers ℝ) (untilConfident p) [4, 7]).step (numbers ℝ) inTurn
      nineSamples [4, 7] = (.goOn, ⟨1, 4, some four, requiresTwo p, 1⟩) :=
    step_four false rfl rfl (shouldStop_untilConfident h 1)
  have hsecond : Search.step (numbers ℝ) inTurn nineSamples [4, 7]
      ⟨1, 4, some four, requiresTwo p, 1⟩ = (.goOn, ⟨2, 4, some four, requiresTwo p, 2⟩) := rfl
  have hagain : estimateFromSample (numbers ℝ) inTurn [4, 7] 4 1 2 = (.ok (some 4), 3) := rfl
  have hthird : Search.step (numbers ℝ) inTurn nineSamples [4, 7]
      ⟨2, 4, some four, requiresTwo p, 2⟩ = (.stop, ⟨3, 4, some four, requiresTwo p, 3⟩) :=
    step_four true hagain (ite_self four) (shouldStop_requiresTwo 3)
  exact .goOn hfirst (.goOn hsecond (.stop hthird))

end Run

/-- The bound for the search among two items that ends with its third iteration. -/
theorem confidence_of_early_end_among_two :
    let s : Search Nat ℝ (Stopping ℝ) Nat := ⟨3, 4, some four, requiresTwo (3 / 4), 3⟩
    Search.Ends (numbers ℝ) inTurn nineSamples [4, 7] 9
        (Search.start (numbers ℝ) (untilConfident (3 / 4)) [4, 7]) true s ∧
      ∃ best, s.best = some best ∧ 1 ≤ best.inliers ∧
        (1 - ((best.inliers : ℝ) / (2 : ℕ)) ^ 1) ^ s.iterations ≤ 1 - 3 / 4 := by
  intro s
  have hends := ends_untilConfident requiredIterations_half
  exact ⟨hends, (confidence_of_early_end (numbers ℝ) inTurn nineSamples (untilConfident (3 / 4))
    [4, 7] rfl (by norm_num) (by norm_num [nineSamples]) hends (Or.inl rfl)).2⟩

end Numbers

end Ransac

end Fitting

end Projectivity
