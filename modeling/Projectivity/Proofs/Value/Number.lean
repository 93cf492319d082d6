import Projectivity.Proofs.Scalar.Dyadic
import Projectivity.Value.Range

/-!
# What the ranges of quantities let through

A number compares with every integer unless it is undefined.  A range that refuses what
is below a bound therefore lets the undefined number through, while one that asks for
what is above a bound does not.
-/

set_option autoImplicit false

namespace Projectivity

namespace Number

/-- The undefined number. -/
def IsNaN : Number → Prop
  | int _ => False
  | real x => x.isNaN = true

/-- A number beyond all others. -/
def IsInfinite : Number → Prop
  | int _ => False
  | real x => x.isInf = true

/-- An integer beyond all doubles, which the nearest double cannot stand for. -/
def IsBeyond : Number → Prop
  | int n => (Decimal.Numeral.float n.natAbs 0).isInf = true
  | real _ => False

/-- Only the undefined number does not compare. -/
theorem compare?_eq_none_iff (x : Number) (k : Int) : x.compare? k = none ↔ x.IsNaN := by
  cases x with
  | int n => simp [compare?, IsNaN]
  | real x =>
    cases hfraction : Decimal.Dyadic.ofFloat? x with
    | none => simp [compare?, hfraction, IsNaN]
    | some d =>
      have hnumber : x.isNaN ≠ true := by
        intro hnan
        have hnone := (Decimal.Dyadic.ofFloat?_eq_none_iff x).mpr (Or.inl hnan)
        rw [hfraction] at hnone
        cases hnone
      simp only [compare?, hfraction, IsNaN]
      exact iff_of_false (Option.some_ne_none _) hnumber

/-- A number that is not less than an integer is at least as large, or undefined. -/
theorem lt_eq_false_iff (x : Number) (k : Int) : x.lt k = false ↔ x.ge k = true ∨ x.IsNaN := by
  rw [← compare?_eq_none_iff x k]
  unfold lt ge gt
  rcases x.compare? k with _ | _ | _ | _ <;> decide

/-- A number that is not at most an integer is greater, or undefined. -/
theorem le_eq_false_iff (x : Number) (k : Int) : x.le k = false ↔ x.gt k = true ∨ x.IsNaN := by
  rw [← compare?_eq_none_iff x k]
  unfold le lt gt
  rcases x.compare? k with _ | _ | _ | _ <;> decide

/-- The undefined number is not above or at an integer. -/
theorem not_isNaN_of_ge {x : Number} {k : Int} (h : x.ge k = true) : ¬ x.IsNaN := by
  rw [← compare?_eq_none_iff x k]
  intro hnone
  simp [ge, gt, hnone] at h

/-- A number that is more than an integer is at least as large. -/
theorem ge_of_gt {x : Number} {k : Int} (h : x.gt k = true) : x.ge k = true := by
  rw [ge, h, Bool.true_or]

/-- A value that is read as a number with a property is not undefined if no such number is. -/
theorem not_isNaN_of_exists {read : Option Number} {p : Number → Prop}
    (h : ∃ x, read = some x ∧ p x) (hp : ∀ x, p x → ¬ x.IsNaN) :
    ∀ x, read = some x → ¬ x.IsNaN := by
  obtain ⟨y, hy, hpy⟩ := h
  intro x hx
  rw [hy, Option.some.injEq] at hx
  exact hx ▸ hp y hpy

/-- A number that is less than an integer is at most as large. -/
theorem le_of_lt {x : Number} {k : Int} (h : x.lt k = true) : x.le k = true := by
  rw [le, h, Bool.true_or]

/-- No integer between zero and one is beyond all doubles. -/
theorem not_isBeyond_of_unit {x : Number} (hzero : x.ge 0 = true) (hone : x.le 1 = true) :
    ¬ x.IsBeyond := by
  cases x with
  | real x => exact id
  | int n =>
    simp only [ge, gt, le, lt, compare?, Bool.or_eq_true, beq_iff_eq, Option.some.injEq,
      compare_gt_iff_gt, compare_eq_iff_eq, compare_lt_iff_lt] at hzero hone
    have hunit : n = 0 ∨ n = 1 := by omega
    rcases hunit with rfl | rfl
    · change ¬ (Decimal.Numeral.float 0 0).isInf = true
      decide +kernel
    · change ¬ (Decimal.Numeral.float 1 0).isInf = true
      decide +kernel

/-- A number can be converted exactly if it is not beyond the largest doubles. -/
theorem exists_toFloat_iff (x : Number) : (∃ y, x.toFloat = .ok y) ↔ ¬ x.IsBeyond := by
  cases x with
  | real x => exact ⟨fun _ => id, fun _ => ⟨x, rfl⟩⟩
  | int n =>
    simp only [toFloat, IsBeyond]
    split
    · rename_i hbeyond
      exact ⟨fun ⟨_, h⟩ => (by cases h), fun h => absurd hbeyond h⟩
    · rename_i hwithin
      exact ⟨fun _ => hwithin, fun _ => ⟨_, rfl⟩⟩

/-- A number can be truncated exactly if it is finite. -/
theorem exists_truncate_iff (x : Number) :
    (∃ n, x.truncate = .ok n) ↔ ¬ x.IsNaN ∧ ¬ x.IsInfinite := by
  cases x with
  | int n => exact ⟨fun _ => ⟨id, id⟩, fun _ => ⟨n, rfl⟩⟩
  | real x =>
    rw [← not_or]
    simp only [IsNaN, IsInfinite]
    rw [← Decimal.Dyadic.ofFloat?_eq_none_iff]
    cases hfraction : Decimal.Dyadic.ofFloat? x with
    | none => simp [truncate, hfraction]
    | some d => simp [truncate, hfraction]

end Number

namespace Quantity

/-- A value that a quantity may have. -/
def Admits (q : Quantity) (v : Value) : Prop :=
  ∃ x, v.number? = some x ∧ q.allows x = true

/-- A check passes exactly for numbers that the quantity allows. -/
theorem check_eq_ok {q : Quantity} {v : Value} {x : Number} :
    q.check v = .ok x ↔ v.number? = some x ∧ q.allows x = true := by
  unfold check Value.number
  cases v.number? with
  | none => simp [bind, Except.bind]
  | some y =>
    simp only [bind, Except.bind, Option.some.injEq]
    split
    · rename_i hallows
      simp only [pure, Except.pure, Except.ok.injEq]
      constructor
      · rintro rfl
        exact ⟨rfl, hallows⟩
      · exact And.left
    · rename_i hrefuses
      constructor
      · rintro ⟨⟩
      · rintro ⟨rfl, hallows⟩
        exact absurd hallows hrefuses

end Quantity

end Projectivity
