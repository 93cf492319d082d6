import Projectivity.Proofs.Exact.Confidence
import Projectivity.Proofs.Fitting.Median

/-!
# The majority

The median of the residuals is at least as large as half of them.  In exact arithmetic the
threshold that follows from a finite median is not below it, if the bound of inliers is at
least one deviation, so that the winner of a search for the least median keeps half of the
items.  A fit then fails on enough items only if no model has a finite median.
-/

set_option autoImplicit false

namespace Projectivity

/-- Medians can be formed of real numbers. -/
instance : Scalar.Averaged ℝ where
  le_refl_left _ := le_rfl
  le_refl_right _ := le_rfl
  le_trans := le_trans
  le_total _ _ := le_total _ _
  lt_iff_not_le _ _ := not_le.symm
  zero_le_zero := le_rfl
  add_nonneg := add_nonneg
  le_refl_of_lt _ := le_rfl
  half_nonneg h := div_nonneg h (Nat.cast_nonneg 2)
  isFinite_of_le _ _ _ := rfl

namespace Extended

variable {values : List (Extended ℝ)} {x y : Extended ℝ} {d : ℝ} {i : ℕ}

/-- Real residuals can be compared. -/
theorem isOrdered_exact (x : Extended ℝ) : x.isOrdered = true := by
  cases x with
  | finite a => exact decide_eq_true le_rfl
  | infinite => rfl

/-- Sorting puts values in ascending order. -/
theorem pairwise_mergeSort (values : List (Extended ℝ)) :
    (values.mergeSort le).Pairwise fun x y => x.le y = true := by
  refine List.pairwise_mergeSort (fun x y z => @le_trans ℝ _ _ x y z)
    (fun x y => ?_) values
  rw [Bool.or_eq_true]
  exact le_total (isOrdered_exact x) (isOrdered_exact y)

/-- A value at some place of the sorted list bounds all values up to this place. -/
theorem lt_countP_of_mergeSort (hx : (values.mergeSort le)[i]? = some x) (hxy : x.le y = true) :
    i < values.countP fun z => z.le y := by
  obtain ⟨hi, hget⟩ := List.getElem?_eq_some_iff.mp hx
  have hpairwise := List.pairwise_iff_getElem.mp (pairwise_mergeSort values)
  have hbelow : ∀ z ∈ (values.mergeSort le).take (i + 1), z.le y = true := by
    intro z hz
    obtain ⟨j, hj, rfl⟩ := List.mem_take_iff_getElem.mp hz
    have hji : j < i + 1 := Nat.lt_of_lt_of_le hj (min_le_left _ _)
    rcases Nat.lt_or_eq_of_le (Nat.le_of_lt_succ hji) with hlt | rfl
    · exact le_trans (hget ▸ hpairwise j i _ hi hlt) hxy
    · exact hget ▸ hxy
  have hprefix := (List.take_sublist (i + 1) (values.mergeSort le)).countP_le (p := fun z => z.le y)
  rw [List.countP_eq_length.mpr hbelow, List.length_take_of_le hi] at hprefix
  rwa [(List.mergeSort_perm values le).countP_eq] at hprefix

/-- The smaller one of two values is not above their mean, if that is finite. -/
theorem le_of_half_add (hxy : x.le y = true) (h : (x.add y).half = .finite d) :
    x.le (.finite d) = true := by
  cases x with
  | infinite => cases h
  | finite a =>
    cases y with
    | infinite => cases h
    | finite b =>
      have hab : a ≤ b := of_decide_eq_true hxy
      have hmean : (a + b) / 2 = d := finite.inj h
      exact decide_eq_true (by linarith)

/-- At least half of the values are not above their median, if it is finite. -/
theorem length_le_of_median (h : median? values = some (.finite d)) :
    values.length ≤ 2 * values.countP fun x => x.le (.finite d) := by
  unfold median? at h
  rw [if_pos (List.all_eq_true.mpr fun x _ => isOrdered_exact x)] at h
  simp only [List.length_mergeSort, beq_iff_eq] at h
  split at h
  · have hself : (finite d).le (.finite d) = true := decide_eq_true le_rfl
    have hcount := lt_countP_of_mergeSort h hself
    omega
  · split at h
    · rename_i a b ha hb
      -- The lower one of the two values in the middle is counted as well.
      obtain ⟨hi, hleft⟩ := List.getElem?_eq_some_iff.mp ha
      obtain ⟨hj, hright⟩ := List.getElem?_eq_some_iff.mp hb
      have hmiddle := hj
      rw [List.length_mergeSort] at hmiddle
      have hle := List.pairwise_iff_getElem.mp (pairwise_mergeSort values) _ _ hi hj (by omega)
      rw [hleft, hright] at hle
      have hcount := lt_countP_of_mergeSort ha (le_of_half_add hle (Option.some.inj h))
      omega
    · cases h

end Extended

namespace Fitting.Lmeds

variable {μ δ σ : Type} (family : Family μ δ ℝ) (settings : Settings ℝ) (data : List δ)

section Threshold

variable (median : ℝ) (items sampleSize : ℤ)

/-- Without rounding there is a threshold for every median. -/
theorem robustThreshold_eq : robustThreshold settings median items sampleSize =
    .ok ((settings.multiplier * noise settings.minScale median items sampleSize) ^ 2) := by
  simp [robustThreshold]

/-- The noise is at least that of the median, since the correction only enlarges it. -/
theorem le_noise (minScale : ℝ) :
    deviationFactor * Real.sqrt (max median 0) ≤ noise minScale median items sampleSize := by
  have hfactor : (0 : ℝ) ≤ deviationFactor := (Exact.decimal_pos (by decide) 4).le
  have hroot := Real.sqrt_nonneg (max median 0)
  unfold noise
  simp only [Exact.larger_eq, Exact.sqrt_eq, Exact.ofInt_eq]
  refine le_trans ?_ (le_max_left _ _)
  refine mul_le_mul_of_nonneg_right (le_mul_of_one_le_right hfactor ?_) hroot
  split
  · rename_i hmore
    have hpos : (0 : ℝ) < ((items - sampleSize : ℤ) : ℝ) := Int.cast_pos.mpr (by omega)
    exact le_add_of_nonneg_right (div_nonneg (by norm_num) hpos.le)
  · exact le_rfl

variable {settings}

/-- If inliers are allowed at least one deviation, a median is not above its threshold. -/
theorem le_threshold (hfactor : 1 ≤ deviationFactor * settings.multiplier) :
    median ≤ (settings.multiplier * noise settings.minScale median items sampleSize) ^ 2 := by
  have hdeviation : (0 : ℝ) < deviationFactor := Exact.decimal_pos (by decide) 4
  have hmultiplier : 0 ≤ settings.multiplier :=
    (pos_of_mul_pos_right (lt_of_lt_of_le one_pos hfactor) hdeviation.le).le
  have hroot := Real.sqrt_nonneg (max median 0)
  have hbound : Real.sqrt (max median 0) ≤
      settings.multiplier * noise settings.minScale median items sampleSize := by
    calc Real.sqrt (max median 0)
        ≤ deviationFactor * settings.multiplier * Real.sqrt (max median 0) :=
          le_mul_of_one_le_left hroot hfactor
      _ = settings.multiplier * (deviationFactor * Real.sqrt (max median 0)) := by ring
      _ ≤ settings.multiplier * noise settings.minScale median items sampleSize :=
          mul_le_mul_of_nonneg_left (le_noise median items sampleSize settings.minScale)
            hmultiplier
  calc median ≤ max median 0 := le_max_left _ _
    _ = Real.sqrt (max median 0) ^ 2 := (Real.sq_sqrt (le_max_right _ _)).symm
    _ ≤ _ := pow_le_pow_left₀ hroot hbound 2

end Threshold

section Majority

variable {family settings data} {models : List (Option μ)}

/-- A model whose residuals have a finite median classifies at least half of the items as inliers
under the threshold that belongs to the median. -/
theorem length_le_marks (hfactor : 1 ≤ deviationFactor * settings.multiplier) {m : μ}
    {median value : ℝ}
    (hmedian : Extended.median? (data.map (family.residual m)) = some (.finite median))
    (hvalue : robustThreshold settings median data.length family.minItems = .ok value) :
    data.length ≤ 2 * marks (classify family m data (.ofScalar value)) := by
  have hhalf := Extended.length_le_of_median hmedian
  rw [List.length_map, List.countP_map] at hhalf
  have hle : median ≤ value := by
    rw [robustThreshold_eq, Except.ok.injEq] at hvalue
    exact hvalue ▸ le_threshold median data.length family.minItems hfactor
  have hcount : data.countP (fun d => (family.residual m d).le (.finite median)) ≤
      marks (classify family m data (.ofScalar value)) := by
    rw [classify_eq_map, marks_map, ← List.countP_eq_length_filter]
    refine List.countP_mono_left fun d _ hd => ?_
    have hthreshold : (Extended.finite median).le (.ofScalar value) = true := decide_eq_true hle
    exact Extended.le_trans hd hthreshold
  exact le_trans hhalf (Nat.mul_le_mul_left 2 hcount)

section Conclusion

variable {state : State μ δ ℝ σ} {count : ℕ} {best : Candidate μ ℝ} {median : ℝ}

/-- A success without refit reports at least half of the items as inliers. -/
theorem length_le_inliers (hfactor : 1 ≤ deviationFactor * settings.multiplier)
    (hmedian : Extended.median? (data.map (family.residual best.model)) = some (.finite median))
    (hrefits : settings.refits = false)
    (hanswer : (conclude family settings state data count best median).answer = .ok true) :
    ∃ summary, (conclude family settings state data count best median).state.summary =
        some summary ∧ data.length ≤ 2 * summary.inliers.length := by
  rcases conclude_cases family settings state data count best median with
    ⟨cause, -, hend⟩ | ⟨value, hvalue, ⟨-, hend⟩ | ⟨-, hend⟩⟩
  · rw [hend] at hanswer
    cases hanswer
  · rw [hend] at hanswer
    cases hanswer
  · refine ⟨_, by rw [hend]; rfl, ?_⟩
    have hhalf := length_le_marks hfactor hmedian hvalue
    simp only [settle, hrefits, Bool.false_eq_true, if_false, classify_eq_map, partition_map,
      marks_map] at hhalf ⊢
    exact hhalf

/-- If the majority is enough to determine a model, a search with a finite median does not fail. -/
theorem conclude_answer_ne (hfactor : 1 ≤ deviationFactor * settings.multiplier)
    (hmedian : Extended.median? (data.map (family.residual best.model)) = some (.finite median))
    (hmajority : 2 * family.minItems ≤ data.length + 1) :
    (conclude family settings state data count best median).answer ≠ .ok false := by
  rcases conclude_cases family settings state data count best median with
    ⟨cause, -, hend⟩ | ⟨value, hvalue, ⟨hfew, hend⟩ | ⟨-, hend⟩⟩
  · rw [hend]
    simp
  · have hhalf := length_le_marks hfactor hmedian hvalue
    omega
  · rw [hend]
    simp

end Conclusion

end Majority

section Report

variable {family settings data}

/-- If inliers are allowed at least one deviation, a finite median, that of the winner above all,
has a threshold under which its model classifies at least half of the items as inliers.  So a
success without refit keeps half of the items, and if so many determine a model, then a fit fails
only because no model that its iterations found has a finite median. -/
theorem fit_keepsMajority (draw : Sampler σ) (state : State μ δ ℝ σ)
    (hmany : family.minItems ≤ data.length)
    (hnonneg : ∀ m, ∀ d ∈ data, Extended.zero.le (family.residual m d) = true)
    (hfactor : 1 ≤ deviationFactor * settings.multiplier) :
    (∀ m median, Extended.median? (data.map (family.residual m)) = some (.finite median) →
      ∃ value, robustThreshold settings median data.length family.minItems = .ok value ∧
        data.length ≤ 2 * marks (classify family m data (.ofScalar value))) ∧
    (settings.refits = false → (fit family draw settings state data).answer = .ok true →
      ∃ summary, (fit family draw settings state data).state.summary = some summary ∧
        data.length ≤ 2 * summary.inliers.length) ∧
    (2 * family.minItems ≤ data.length + 1 →
      (fit family draw settings state data).answer = .ok false →
      ∃ models last sampler, iterations settings family.minItems = .ok models.length ∧
        Iterations draw family data settings.sampleTries state.model state.sampler models last
          sampler ∧
        NoneFinite family data models ∧
        (fit family draw settings state data).state = state.failed sampler models.length) := by
  refine ⟨?_, ?_⟩
  · intro m median hmedian
    exact ⟨_, robustThreshold_eq _ _ _ _,
      length_le_marks hfactor hmedian (robustThreshold_eq _ _ _ _)⟩
  rcases fit_cases family draw settings state data with ⟨hfew, -⟩ | ⟨-, hcases⟩
  · exact absurd hfew (Nat.not_lt.mpr hmany)
  rcases hcases with ⟨cause, next, -, hfit⟩ | ⟨count, s, hends, hfit⟩ |
    ⟨count, s, best, median, value, hends, hfit⟩
  · rw [hfit]
    refine ⟨fun _ hanswer => ?_, fun _ hanswer => ?_⟩ <;> cases hanswer
  · refine ⟨fun _ hanswer => ?_, fun _ _ => ?_⟩
    · rw [hfit] at hanswer
      cases hanswer
    · obtain ⟨models, rfl, hreached⟩ := Search.reached_of_run hends.run_eq
      have hnone := (forall_least_iff_noneFinite hnonneg).mp fun m d hleast =>
        hends.isFinite_eq_false hreached hleast
      exact ⟨models, _, _, hends.count_eq, hreached.iterations, hnone, by rw [hfit]⟩
  · obtain ⟨models, rfl, hreached⟩ := Search.reached_of_run hends.run_eq
    have hmedian := (hends.winner hreached).least.hasMedian.1
    rw [hfit]
    exact ⟨length_le_inliers hfactor hmedian, fun hmajority hanswer =>
      absurd hanswer (conclude_answer_ne hfactor hmedian hmajority)⟩

end Report

section Numbers

/-- A search without refit under the usual bound of inliers, in which each iteration draws once. -/
noncomputable def usual : Settings ℝ :=
  ⟨0, Scalar.decimal 99 2, Scalar.decimal 25 1, Scalar.decimal 1 6, 1, false⟩

/-- The usual multiplier does not make the deviation smaller. -/
theorem one_le_usual : (1 : ℝ) ≤ deviationFactor * usual.multiplier := by
  norm_num [deviationFactor, usual]

/-- The usual settings lead to ten iterations for numbers. -/
theorem iterations_usual : iterations usual (numbers ℝ).minItems = .ok 10 := by
  have hgood : probabilityPower (1 : ℝ) 1 = .ok 1 :=
    (probabilityPower_eq 1 1).trans (congrArg Except.ok (one_pow 1))
  simp [iterations, sampleCount, usual, numbers, hgood, Except.map, bind, Except.bind,
    Number.truncate, leastIterations]

/-- Two of three numbers are equal, and the third one has an infinite residual under them. -/
theorem fit_keepsMajority_of_equal_numbers :
    let outcome := fit (numbers ℝ) inTurn usual ⟨0, 0, none⟩ [4, 4, 7]
    (numbers ℝ).minItems ≤ [4, 4, 7].length ∧
      (∀ m, ∀ d ∈ [4, 4, 7], Extended.zero.le ((numbers ℝ).residual m d) = true) ∧
      1 ≤ deviationFactor * usual.multiplier ∧
      outcome.answer = .ok true ∧
      ∃ summary, outcome.state.summary = some summary ∧ 3 ≤ 2 * summary.inliers.length := by
  intro outcome
  have hmany : (numbers ℝ).minItems ≤ [4, 4, 7].length := by decide
  have hnonneg : ∀ m, ∀ d ∈ [4, 4, 7], Extended.zero.le ((numbers ℝ).residual m d) = true :=
    fun m d _ => numbers_residual_nonneg m d
  obtain ⟨-, hsuccess, -⟩ := fit_keepsMajority inTurn ⟨0, 0, none⟩ hmany hnonneg one_le_usual
  have hanswer : outcome.answer = .ok true := by
    have hfit : outcome = conclude (numbers ℝ) usual ⟨0, 10, none⟩ [4, 4, 7] 10 ⟨4, .zero⟩ 0 :=
      fit_numbers rfl iterations_usual rfl
    rw [hfit]
    rcases conclude_cases (numbers ℝ) usual ⟨0, 10, none⟩ [4, 4, 7] 10 ⟨4, .zero⟩ 0 with
      ⟨cause, hcause, -⟩ | ⟨value, -, ⟨-, hend⟩ | ⟨-, hend⟩⟩
    · rw [robustThreshold_eq] at hcause
      cases hcause
    · exact absurd (by rw [hend]) (conclude_answer_ne one_le_usual median_four (by decide))
    · rw [hend]
  exact ⟨hmany, hnonneg, one_le_usual, hanswer, hsuccess rfl hanswer⟩

end Numbers

end Fitting.Lmeds

end Projectivity
