import Projectivity.Fitting.Refit

/-!
# Partitions by marks

A mask that a model produces splits the items into those within the threshold and
those beyond it, in the order in which they were given.  A mask that belongs to its
model and has enough marks keeps both properties through a refit, whichever round
ends it.
-/

set_option autoImplicit false

namespace Projectivity.Fitting

variable {μ δ α : Type}

/-- A partition by the marks of a test is one by the test. -/
theorem partition_map (data : List δ) (p : δ → Bool) :
    partition data (data.map p) = (data.filter p, data.filter fun d => !p d) := by
  have hzip : data.zip (data.map p) = data.map fun d => (d, p d) := by
    induction data with
    | nil => rfl
    | cons d rest ih => simp [ih]
  simp only [partition, hzip, List.filter_map, List.map_map, Function.comp_def, List.map_id']

/-- The marks of a test are counted by the items that pass it. -/
theorem marks_map (data : List δ) (p : δ → Bool) :
    marks (data.map p) = (data.filter p).length := by
  induction data with
  | nil => rfl
  | cons d rest ih =>
    unfold marks at ih ⊢
    by_cases h : p d = true
    · simp [h, ih]
    · simp [h, ih]

/-- No item satisfies a predicate and its negation, so the two filtered lists share no item. -/
theorem not_mem_filter_not {data : List δ} {p : δ → Bool} {d : δ} (h : d ∈ data.filter p) :
    d ∉ data.filter fun d => !p d := by
  simp only [List.mem_filter, not_and]
  intro _ hneg
  rw [(List.mem_filter.mp h).2] at hneg
  cases hneg

section Marked

variable [Scalar α] (family : Family μ δ α) (data : List δ) (threshold : Extended α)

/-- Whether an item is within a threshold of a model. -/
def agrees (m : μ) (d : δ) : Bool := (family.residual m d).le threshold

/-- The classification by a model marks the items that agree with it. -/
theorem classify_eq_map (m : μ) :
    classify family m data threshold = data.map (agrees family threshold m) := rfl

/-- A mask that is the classification by its model and marks enough items to determine one. -/
structure Supports (m : μ) (mask : List Bool) : Prop where
  mask_eq : mask = classify family m data threshold
  enough : family.minItems ≤ marks mask

variable {family data threshold}

/-- A supporting mask partitions the items into those that agree with the model and the others. -/
theorem Supports.partition_eq {m : μ} {mask : List Bool}
    (h : Supports family data threshold m mask) :
    partition data mask =
      (data.filter (agrees family threshold m),
        data.filter fun d => !agrees family threshold m d) := by
  rw [h.mask_eq, classify_eq_map, partition_map]

/-- The marks of a mask that a model supports count the items that agree with it. -/
theorem Supports.marks_eq {m : μ} {mask : List Bool}
    (h : Supports family data threshold m mask) :
    marks mask = (data.filter (agrees family threshold m)).length := by
  rw [h.mask_eq, classify_eq_map, marks_map]

section Rounds

variable (family data threshold)

/-- A round of a refit replaces a model and its mask by the estimate from the marked items and by a
mask that supports it. -/
structure Replaces (m : μ) (mask : List Bool) (next : μ) (nextMask : List Bool) : Prop where
  estimated : family.estimate m (partition data mask).1 = some next
  supports : Supports family data threshold next nextMask

/-- How a refit with a round left goes on: the round is discarded, or it replaces the model and
keeps the mask, which ends the refit as well, or it replaces both of them. -/
theorem refit_cases (rounds : Nat) (m : μ) (mask : List Bool) :
    ((∀ next nextMask, ¬ Replaces family data threshold m mask next nextMask) ∧
        refit family data threshold (rounds + 1) m mask = (m, mask)) ∨
      ∃ next nextMask, Replaces family data threshold m mask next nextMask ∧
        ((nextMask = mask ∧ refit family data threshold (rounds + 1) m mask = (next, mask)) ∨
          (nextMask ≠ mask ∧ refit family data threshold (rounds + 1) m mask =
            refit family data threshold rounds next nextMask)) := by
  rw [Fitting.refit]
  cases hestimate : family.estimate m (partition data mask).1 with
  | none =>
    refine Or.inl ⟨fun next nextMask hround => ?_, rfl⟩
    rw [hround.estimated] at hestimate
    cases hestimate
  | some next =>
    simp only
    by_cases hfew : marks (classify family next data threshold) < family.minItems
    · rw [if_pos hfew]
      refine Or.inl ⟨fun other otherMask hround => ?_, rfl⟩
      obtain rfl := Option.some.inj (hestimate.symm.trans hround.estimated)
      have henough := hround.supports.enough
      rw [hround.supports.mask_eq] at henough
      exact Nat.not_lt.mpr henough hfew
    · rw [if_neg hfew]
      refine Or.inr ⟨next, _, ⟨hestimate, rfl, Nat.le_of_not_lt hfew⟩, ?_⟩
      by_cases hsame : classify family next data threshold = mask
      · rw [if_pos (beq_iff_eq.mpr hsame), hsame]
        exact Or.inl ⟨rfl, rfl⟩
      · rw [if_neg (mt beq_iff_eq.mp hsame)]
        exact Or.inr ⟨hsame, rfl⟩

end Rounds

/-- A refit returns a model with a mask that supports it, if it starts from such a pair.  A round
either replaces both of them or keeps both. -/
theorem Supports.refit {m : μ} {mask : List Bool} (rounds : Nat)
    (h : Supports family data threshold m mask) :
    Supports family data threshold (refit family data threshold rounds m mask).1
      (refit family data threshold rounds m mask).2 := by
  -- An early exit gives back the pair of the round before, never half of a new one.
  induction rounds generalizing m mask with
  | zero => exact h
  | succ rounds ih =>
    rcases refit_cases family data threshold rounds m mask with
      ⟨-, hend⟩ | ⟨next, nextMask, hround, ⟨hsame, hend⟩ | ⟨-, hend⟩⟩
    · rw [hend]
      exact h
    · rw [hend]
      exact hsame ▸ hround.supports
    · rw [hend]
      exact ih hround.supports

end Marked

end Projectivity.Fitting
