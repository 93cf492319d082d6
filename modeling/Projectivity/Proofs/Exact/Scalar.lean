import Mathlib.Analysis.Real.Sqrt
import Mathlib.Analysis.SpecialFunctions.Log.Basic
import Projectivity.Extended.Summation

/-!
# Exact scalars

The real numbers as scalars.  Every real number is finite, and no operation rounds, so
that what is proved over them is what the geometry itself does.
-/

set_option autoImplicit false

namespace Projectivity

/-- The integer nearest to a real number, a half going to the even neighbour. -/
noncomputable def Exact.roundEven (x : ℝ) : ℤ :=
  if Int.fract x < 1 / 2 then ⌊x⌋
  else if 1 / 2 < Int.fract x then ⌊x⌋ + 1
  else if Even ⌊x⌋ then ⌊x⌋ else ⌊x⌋ + 1

/-- The real numbers are scalars. -/
noncomputable instance : Scalar ℝ :=
  { (inferInstance : Zero ℝ), (inferInstance : One ℝ), (inferInstance : NatCast ℝ),
    (inferInstance : Add ℝ), (inferInstance : Sub ℝ), (inferInstance : Mul ℝ),
    (inferInstance : Div ℝ), (inferInstance : Neg ℝ), (inferInstance : LE ℝ),
    (inferInstance : LT ℝ) with
    leDecidable := fun a b => Classical.propDecidable (a ≤ b)
    ltDecidable := fun a b => Classical.propDecidable (a < b)
    abs := fun x => |x|
    sqrt := Real.sqrt
    log1p := fun x => Real.log (1 + x)
    pow := fun x n => x ^ n
    ceil := Int.ceil
    roundEven := Exact.roundEven
    decimal := fun m k => (m : ℝ) / 10 ^ k
    isFinite := fun _ => true
    isAbove := fun _ => false }

/-- Exact sums are the same in every order. -/
noncomputable instance : Summation ℝ := ⟨Extended.sum⟩

namespace Exact

/-- The absolute value is the one of real numbers. -/
@[simp] theorem abs_eq (x : ℝ) : Scalar.abs x = |x| := rfl

/-- The square root is the one of real numbers. -/
@[simp] theorem sqrt_eq (x : ℝ) : Scalar.sqrt x = Real.sqrt x := rfl

/-- Real numbers are finite. -/
@[simp] theorem isFinite_eq (x : ℝ) : Scalar.isFinite x = true := rfl

/-- Decimal fractions are quotients of real numbers. -/
@[simp] theorem decimal_eq (m k : ℕ) : (Scalar.decimal m k : ℝ) = (m : ℝ) / 10 ^ k := rfl

/-- Decimal fractions with digits are positive. -/
theorem decimal_pos {m : ℕ} (h : 0 < m) (k : ℕ) : (0 : ℝ) < Scalar.decimal m k := by
  rw [decimal_eq]
  exact div_pos (Nat.cast_pos.mpr h) (pow_pos (by norm_num) k)

/-- The square is a power. -/
@[simp] theorem square_eq (x : ℝ) : Scalar.square x = x ^ 2 := (pow_two x).symm

/-- Integers are cast. -/
@[simp] theorem ofInt_eq (n : ℤ) : (Scalar.ofInt n : ℝ) = n := by
  cases n with
  | ofNat n => rfl
  | negSucc n => simp only [Scalar.ofInt, Int.cast_negSucc]

/-- Integers are rounded to themselves. -/
theorem roundEven_intCast (n : ℤ) : Scalar.roundEven (n : ℝ) = n := by
  change Exact.roundEven n = n
  rw [roundEven, Int.fract_intCast, if_pos one_half_pos, Int.floor_intCast]

/-- The larger one of two numbers is their maximum. -/
@[simp] theorem larger_eq (a b : ℝ) : Scalar.larger a b = max a b := by
  unfold Scalar.larger
  split
  · rename_i h
    exact (max_eq_right (le_of_lt h)).symm
  · rename_i h
    exact (max_eq_left (not_lt.mp h)).symm

/-- The smaller one of two numbers is their minimum. -/
@[simp] theorem smaller_eq (a b : ℝ) : Scalar.smaller a b = min a b := by
  unfold Scalar.smaller
  split
  · rename_i h
    exact (min_eq_right (le_of_lt h)).symm
  · rename_i h
    exact (min_eq_left (not_lt.mp h)).symm

/-- No number of a list is larger in size than the largest absolute value. -/
theorem abs_le_largestAbs {a : List ℝ} {x : ℝ} (h : x ∈ a) : |x| ≤ Scalar.largestAbs a := by
  have hstart : ∀ (a : List ℝ) (m : ℝ), m ≤ a.foldl (fun m x => Scalar.larger m (Scalar.abs x)) m ∧
      ∀ x ∈ a, |x| ≤ a.foldl (fun m x => Scalar.larger m (Scalar.abs x)) m := by
    intro a
    induction a with
    | nil => exact fun m => ⟨le_refl m, fun x hx => absurd hx (List.not_mem_nil)⟩
    | cons y rest ih =>
      intro m
      obtain ⟨hm, hrest⟩ := ih (Scalar.larger m (Scalar.abs y))
      simp only [larger_eq, abs_eq] at hm hrest ⊢
      refine ⟨le_trans (le_max_left m |y|) hm, ?_⟩
      intro x hx
      rcases List.mem_cons.mp hx with rfl | hx
      · exact le_trans (le_max_right m |x|) hm
      · exact hrest x hx
  exact (hstart a 0).2 x h

end Exact

end Projectivity
