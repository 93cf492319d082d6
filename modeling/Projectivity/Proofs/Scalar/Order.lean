import Projectivity.Extended.Summation

/-!
# The order of scalars

Scalars that can be compared at all are in one total order, although their arithmetic
may round.  The order extends to the values with infinity, and a sum of values that
are not negative is such a value again, so that sums can always be compared.
-/

set_option autoImplicit false

namespace Projectivity

/-- Scalars of which those that can be compared with themselves are totally ordered, and of which
the sum of two that are not negative is not negative. -/
class Scalar.Ordered (α : Type) [Scalar α] : Prop where
  le_refl_left : ∀ {a b : α}, a ≤ b → a ≤ a
  le_refl_right : ∀ {a b : α}, a ≤ b → b ≤ b
  le_trans : ∀ {a b c : α}, a ≤ b → b ≤ c → a ≤ c
  le_total : ∀ {a b : α}, a ≤ a → b ≤ b → a ≤ b ∨ b ≤ a
  lt_iff_not_le : ∀ {a b : α}, a ≤ a → b ≤ b → (a < b ↔ ¬ b ≤ a)
  zero_le_zero : (0 : α) ≤ 0
  add_nonneg : ∀ {a b : α}, 0 ≤ a → 0 ≤ b → 0 ≤ a + b

/-- Ordered scalars of which medians can be formed: a value less than another one can be compared,
half of one that is not negative is not negative, and below a finite number there are none but
finite ones down to zero. -/
class Scalar.Averaged (α : Type) [Scalar α] : Prop extends Scalar.Ordered α where
  le_refl_of_lt : ∀ {a b : α}, a < b → a ≤ a
  half_nonneg : ∀ {a : α}, 0 ≤ a → 0 ≤ a / ((2 : Nat) : α)
  isFinite_of_le : ∀ {a b : α}, 0 ≤ a → a ≤ b → isFinite b = true → isFinite a = true

/-- Scalars of which "less than" is transitive, and of which only one that can be compared is less
than another one. -/
class Scalar.Strict (α : Type) [Scalar α] : Prop where
  le_refl_of_lt : ∀ {a b : α}, a < b → a ≤ a
  lt_trans : ∀ {a b c : α}, a < b → b < c → a < c

/-- Sums over a type of scalars of which those of values that are not negative are not negative. -/
class Summation.Nonneg (α : Type) [Scalar α] [Summation α] : Prop where
  zero_le_total : ∀ {values : List (Extended α)}, (∀ x ∈ values, Extended.zero.le x = true) →
    Extended.zero.le (Summation.total values) = true

namespace Extended

/-- The strict order is transitive. -/
theorem lt_trans {α : Type} [Scalar α] [Scalar.Strict α] {x y z : Extended α}
    (hxy : x.lt y = true) (hyz : y.lt z = true) : x.lt z = true := by
  cases x with
  | infinite => cases hxy
  | finite a =>
    cases y with
    | infinite => cases hyz
    | finite b =>
      simp only [lt, decide_eq_true_eq] at hxy
      cases z with
      | infinite => exact decide_eq_true (Scalar.Strict.le_refl_of_lt hxy)
      | finite c => exact decide_eq_true (Scalar.Strict.lt_trans hxy (of_decide_eq_true hyz))

section Order

variable {α : Type} [Scalar α] [Scalar.Ordered α] {x y z : Extended α}

/-- What is at most something can be compared, and so can the other. -/
theorem isOrdered_of_le (h : x.le y = true) : x.isOrdered = true ∧ y.isOrdered = true := by
  cases x with
  | infinite =>
    cases y with
    | infinite => exact ⟨rfl, rfl⟩
    | finite b => cases h
  | finite a =>
    cases y with
    | infinite => exact ⟨h, rfl⟩
    | finite b =>
      simp only [le, isOrdered, decide_eq_true_eq] at h ⊢
      exact ⟨Scalar.Ordered.le_refl_left h, Scalar.Ordered.le_refl_right h⟩

/-- The order is transitive. -/
theorem le_trans (hxy : x.le y = true) (hyz : y.le z = true) : x.le z = true := by
  have hx := (isOrdered_of_le hxy).1
  cases z with
  | infinite =>
    cases x with
    | infinite => rfl
    | finite a => exact hx
  | finite c =>
    cases y with
    | infinite => cases hyz
    | finite b =>
      cases x with
      | infinite => cases hxy
      | finite a =>
        simp only [le, decide_eq_true_eq] at hxy hyz ⊢
        exact Scalar.Ordered.le_trans hxy hyz

/-- Of two values that can be compared, the first is less exactly if the second is not at most
it. -/
theorem lt_iff_not_le (hx : x.isOrdered = true) (hy : y.isOrdered = true) :
    x.lt y = true ↔ ¬ y.le x = true := by
  cases x with
  | infinite =>
    cases y with
    | infinite => simp [lt, le]
    | finite b =>
      simp only [isOrdered, decide_eq_true_eq] at hy
      simp [lt, le, hy]
  | finite a =>
    simp only [isOrdered, decide_eq_true_eq] at hx
    cases y with
    | infinite => simp [lt, le, hx]
    | finite b =>
      simp only [isOrdered, decide_eq_true_eq] at hy
      simp only [lt, le, decide_eq_true_eq]
      exact Scalar.Ordered.lt_iff_not_le hx hy

/-- Of two values that can be compared, one is at most the other. -/
theorem le_total (hx : x.isOrdered = true) (hy : y.isOrdered = true) :
    x.le y = true ∨ y.le x = true := by
  cases x with
  | infinite =>
    cases y with
    | infinite => exact Or.inr rfl
    | finite b => exact Or.inr hy
  | finite a =>
    cases y with
    | infinite => exact Or.inl hx
    | finite b =>
      simp only [isOrdered, le, decide_eq_true_eq] at hx hy ⊢
      exact Scalar.Ordered.le_total hx hy

/-- What is not less than something is at least as large, if both can be compared. -/
theorem le_of_not_lt (hx : x.isOrdered = true) (hy : y.isOrdered = true)
    (h : ¬ x.lt y = true) : y.le x = true := by
  rw [lt_iff_not_le hx hy] at h
  exact Decidable.not_not.mp h

/-- What is less than something is at most it, if both can be compared. -/
theorem le_of_lt (hx : x.isOrdered = true) (hy : y.isOrdered = true) (h : x.lt y = true) :
    x.le y = true :=
  (le_total hx hy).resolve_right ((lt_iff_not_le hx hy).mp h)

/-- What is less than something is less than all that is at least as large. -/
theorem lt_of_lt_of_le (hx : x.isOrdered = true) (hxy : x.lt y = true) (hyz : y.le z = true) :
    x.lt z = true := by
  obtain ⟨hy, hz⟩ := isOrdered_of_le hyz
  rw [lt_iff_not_le hx hz]
  intro hzx
  exact (lt_iff_not_le hx hy).mp hxy (le_trans hyz hzx)

/-- Zero can be compared. -/
theorem zero_le_zero : (zero : Extended α).le zero = true :=
  decide_eq_true Scalar.Ordered.zero_le_zero

/-- Zero is at most what is infinite. -/
theorem zero_le_infinite : (zero : Extended α).le infinite = true :=
  decide_eq_true Scalar.Ordered.zero_le_zero

/-- A sum of what is not negative is not negative. -/
theorem add_nonneg (hx : zero.le x = true) (hy : zero.le y = true) :
    zero.le (x.add y) = true := by
  cases x with
  | infinite => exact zero_le_infinite
  | finite a =>
    cases y with
    | infinite => exact zero_le_infinite
    | finite b =>
      simp only [zero, le, decide_eq_true_eq] at hx hy
      unfold add ofScalar
      simp only
      split
      · exact zero_le_infinite
      · exact decide_eq_true (Scalar.Ordered.add_nonneg hx hy)

/-- Adding values that are not negative to one that is not negative never gets below zero. -/
theorem foldl_add_nonneg {values : List (Extended α)} {s : Extended α} (hs : zero.le s = true)
    (h : ∀ x ∈ values, zero.le x = true) : zero.le (values.foldl add s) = true := by
  -- The induction is on the values that are left, over every sum reached so far.
  induction values generalizing s with
  | nil => exact hs
  | cons x rest ih =>
    rw [List.forall_mem_cons] at h
    exact ih (add_nonneg hs h.1) h.2

/-- A partial sum of values that are not negative is not negative. -/
theorem laneSum_nonneg {values : List (Extended α)} (h : ∀ x ∈ values, zero.le x = true)
    (lane : Nat) : zero.le (laneSum values lane) = true := by
  refine foldl_add_nonneg zero_le_zero fun x hx => ?_
  obtain ⟨⟨y, i⟩, hy, rfl⟩ := List.mem_map.mp hx
  exact h y (List.fst_mem_of_mem_zipIdx (List.mem_filter.mp hy).1)

/-- The sum of a block of values that are not negative is not negative. -/
theorem blockSum_nonneg {values : List (Extended α)} (h : ∀ x ∈ values, zero.le x = true) :
    zero.le (blockSum values) = true := by
  have hlane := laneSum_nonneg fun x hx =>
    h x (List.mem_of_mem_take (i := values.length - values.length % lanes) hx)
  have hlow := add_nonneg (add_nonneg (hlane 0) (hlane 1)) (add_nonneg (hlane 2) (hlane 3))
  have hhigh := add_nonneg (add_nonneg (hlane 4) (hlane 5)) (add_nonneg (hlane 6) (hlane 7))
  exact foldl_add_nonneg (add_nonneg hlow hhigh) fun x hx => h x (List.mem_of_mem_drop hx)

/-- The pairwise sum of values that are not negative is not negative.  The induction is on the
halves that a long list is split into. -/
theorem pairwiseSum_nonneg (values : List (Extended α)) (h : ∀ x ∈ values, zero.le x = true) :
    zero.le (pairwiseSum values) = true := by
  induction values using pairwiseSum.induct with
  | case1 values hshort =>
    rw [pairwiseSum, if_pos hshort]
    exact blockSum_nonneg h
  | case2 values hlong position ihlow ihhigh =>
    rw [pairwiseSum, if_neg hlong]
    exact add_nonneg (ihlow fun x hx => h x (List.mem_of_mem_take hx))
      (ihhigh fun x hx => h x (List.mem_of_mem_drop hx))

end Order

section Median

variable {α : Type} [Scalar α] [Scalar.Averaged α] {x y : Extended α}

/-- What is less than something can be compared. -/
theorem isOrdered_of_lt (h : x.lt y = true) : x.isOrdered = true := by
  cases x with
  | infinite => rfl
  | finite a =>
    cases y with
    | infinite => exact h
    | finite b => exact decide_eq_true (Scalar.Averaged.le_refl_of_lt (of_decide_eq_true h))

/-- Half of what is not negative is not negative. -/
theorem half_nonneg (h : zero.le x = true) : zero.le x.half = true := by
  cases x with
  | infinite => exact zero_le_infinite
  | finite a => exact decide_eq_true (Scalar.Averaged.half_nonneg (of_decide_eq_true h))

/-- What is between zero and something finite is finite. -/
theorem isFinite_of_le (hx : zero.le x = true) (hxy : x.le y = true) (hy : y.isFinite = true) :
    x.isFinite = true := by
  cases y with
  | infinite => cases hy
  | finite b =>
    cases x with
    | infinite => cases hxy
    | finite a =>
      exact Scalar.Averaged.isFinite_of_le (of_decide_eq_true hx) (of_decide_eq_true hxy) hy

omit [Scalar.Averaged α] in
/-- A list of values that can be compared has a median, unless it is empty. -/
theorem exists_median {values : List (Extended α)} (hordered : ∀ x ∈ values, x.isOrdered = true)
    (hsome : values ≠ []) : ∃ d, median? values = some d := by
  have hpos : 0 < (values.mergeSort le).length := by
    rw [List.length_mergeSort]
    exact List.length_pos_iff.mpr hsome
  unfold median?
  rw [if_pos (List.all_eq_true.mpr hordered)]
  simp only
  split
  · rw [List.getElem?_eq_getElem (by omega)]
    exact ⟨_, rfl⟩
  · rw [List.getElem?_eq_getElem (by omega), List.getElem?_eq_getElem (by omega)]
    exact ⟨_, rfl⟩

/-- The median of values that are not negative is not negative. -/
theorem median_nonneg {values : List (Extended α)} {d : Extended α}
    (hnonneg : ∀ x ∈ values, zero.le x = true) (h : median? values = some d) :
    zero.le d = true := by
  have hsorted : ∀ (i : Nat) (x : Extended α), (values.mergeSort le)[i]? = some x → zero.le x = true := by
    intro i x hx
    exact hnonneg x ((List.mergeSort_perm values le).mem_iff.mp (List.mem_of_getElem? hx))
  unfold median? at h
  rw [if_pos (List.all_eq_true.mpr fun x hx => (isOrdered_of_le (hnonneg x hx)).2)] at h
  simp only at h
  split at h
  · exact hsorted _ d h
  · split at h
    · rename_i a b ha hb
      rw [Option.some.injEq] at h
      rw [← h]
      exact half_nonneg (add_nonneg (hsorted _ a ha) (hsorted _ b hb))
    · cases h

end Median

end Extended

end Projectivity
