import Projectivity.Homography.Refinement

/-!
# What a refinement returns

A refinement returns the transform that it was given, or one of no greater cost that is
not singular and of norm one.  It breaks off only with a fault of the solver, and only
where the solver is asked at all.
-/

set_option autoImplicit false

namespace Projectivity.Refinement

variable {α : Type} [Scalar α] [Spectral α]

/-- A transform that a refinement puts in the place of another.  Both are not singular, the new one
is scaled, and its cost is not above that of the other. -/
structure Improves (mode : Refinement) (data : List (Correspondence α))
    (initial refined : Matrix3 α) : Prop where
  regular : initial.isNonSingular Matrix3.rankTolerance = true
  scaled : ∃ H : Matrix3 α, H.isNonSingular Matrix3.rankTolerance = true ∧
    refined = H.canonicalScale
  cost_le : mode.cost refined data ≤ mode.cost initial data

/-- What breaks a refinement off: the solver is asked, and refuses for something else than a bad
value. -/
structure BreaksOff (mode : Refinement) (solver : Solver α) (initial : Matrix3 α)
    (data : List (Correspondence α)) (cause : Fault) : Prop where
  on : mode ≠ off
  enough : Linear.minItems ≤ data.length
  regular : initial.isNonSingular Matrix3.rankTolerance = true
  refused : ∃ F, Frame.ofData? data = some F ∧
    solver (mode.objective F data) (F.enter initial).canonicalScale = .error cause
  kind_ne : cause.kind ≠ .badValue

variable (mode : Refinement) (initial : Matrix3 α) (data : List (Correspondence α))

/-- The outcome for a point of the solver is the start or an improvement on it. -/
theorem conclude_matrix (hinitial : initial.isNonSingular Matrix3.rankTolerance = true)
    (F : Frame α) (solution : Solution α) :
    (mode.conclude initial data F solution).matrix = initial ∨
      mode.Improves data initial (mode.conclude initial data F solution).matrix := by
  unfold conclude
  simp only
  by_cases hregular : (F.leave solution.point).isNonSingular Matrix3.rankTolerance = true
  · rw [if_pos hregular]
    by_cases hcost : mode.cost (F.leave solution.point).canonicalScale data ≤
        mode.cost initial data
    · rw [if_pos hcost]
      exact Or.inr ⟨hinitial, ⟨_, hregular, rfl⟩, hcost⟩
    · rw [if_neg hcost]
      exact Or.inl rfl
  · rw [if_neg hregular]
    exact Or.inl rfl

variable (solver : Solver α)

/-- A refinement keeps the start, or improves on it, or breaks off. -/
theorem refine_cases :
    (∃ outcome, mode.refine solver initial data = .ok outcome ∧
      (outcome.matrix = initial ∨ mode.Improves data initial outcome.matrix)) ∨
    ∃ cause, mode.refine solver initial data = .error cause ∧
      mode.BreaksOff solver initial data cause := by
  unfold refine
  split
  · exact Or.inl ⟨_, rfl, Or.inl rfl⟩
  rename_i hasked
  simp only [Bool.or_eq_true, decide_eq_true_eq, Bool.not_eq_true', not_or,
    Bool.not_eq_false] at hasked
  obtain ⟨⟨hon, henough⟩, hregular⟩ := hasked
  cases hframe : Frame.ofData? data with
  | none => exact Or.inl ⟨_, rfl, Or.inl rfl⟩
  | some F =>
    cases hsolver : solver (mode.objective F data) (F.enter initial).canonicalScale with
    | ok solution =>
      exact Or.inl ⟨_, by simp only [hsolver],
        mode.conclude_matrix initial data hregular F solution⟩
    | error cause =>
      by_cases hkind : cause.kind = .badValue
      · exact Or.inl ⟨⟨initial, [Notice.failed]⟩, by simp only [hsolver, if_pos hkind], Or.inl rfl⟩
      · exact Or.inr ⟨cause, by simp only [hsolver, if_neg hkind],
          hon, Nat.le_of_not_lt henough, hregular, ⟨F, hframe, hsolver⟩, hkind⟩

variable {solver}

/-- A refinement that is not broken off keeps the start or improves on it. -/
theorem exists_refine_eq_ok (hwhole : ∀ cause, ¬ mode.BreaksOff solver initial data cause) :
    ∃ outcome, mode.refine solver initial data = .ok outcome ∧
      (outcome.matrix = initial ∨ mode.Improves data initial outcome.matrix) := by
  rcases mode.refine_cases initial data solver with hok | ⟨cause, _, hbroken⟩
  · exact hok
  · exact absurd hbroken (hwhole cause)

/-- A refinement returns the initial matrix or one that improves on it. -/
theorem refine_matrix {outcome : Outcome α}
    (h : mode.refine solver initial data = .ok outcome) :
    outcome.matrix = initial ∨ mode.Improves data initial outcome.matrix := by
  rcases mode.refine_cases initial data solver with ⟨other, hok, hmatrix⟩ | ⟨cause, herror, _⟩
  · rw [h, Except.ok.injEq] at hok
    rw [hok]
    exact hmatrix
  · rw [h] at herror
    cases herror

/-- A refinement is refused exactly if it is broken off for this cause. -/
theorem refine_error_iff (cause : Fault) :
    mode.refine solver initial data = .error cause ↔
      mode.BreaksOff solver initial data cause := by
  constructor
  · intro h
    rcases mode.refine_cases initial data solver with ⟨_, hok, _⟩ | ⟨other, herror, hbreak⟩
    · rw [h] at hok
      cases hok
    · rw [h, Except.error.injEq] at herror
      rw [herror]
      exact hbreak
  · intro h
    obtain ⟨F, hframe, hsolver⟩ := h.refused
    have hfew : ¬ data.length < Linear.minItems := Nat.not_lt.mpr h.enough
    simp [refine, h.on, hfew, h.regular, hframe, hsolver, h.kind_ne]

end Projectivity.Refinement
