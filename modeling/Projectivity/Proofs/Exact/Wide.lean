import Projectivity.Proofs.Exact.Scalar

/-!
# Exact scalars with special values

The real numbers together with a value above them, one below them and an undefined one.
Operations on real numbers are exact, and a division by zero or a square root of a
negative number gives a special value, as it does with doubles.  A result is a real
number only if the operands that count are, so that a computation which ends in a real
number can be followed back through real numbers.
-/

set_option autoImplicit false

namespace Projectivity

/-- A real number or a special value. -/
inductive Wide where
  | real (x : ℝ)
  | above
  | below
  | undefined

namespace Wide

/-- A number with the sign of a value, and zero for the undefined value. -/
def direction : Wide → ℝ
  | real x => x
  | above => 1
  | below => -1
  | undefined => 0

/-- The infinite value with the sign of a number, and the undefined one for zero. -/
noncomputable def infinite (x : ℝ) : Wide :=
  if 0 < x then above else if x < 0 then below else undefined

/-- The opposite of a value. -/
protected def neg : Wide → Wide
  | real x => real (-x)
  | above => below
  | below => above
  | undefined => undefined

/-- The sum of two values, undefined where infinite ones cancel. -/
protected noncomputable def add : Wide → Wide → Wide
  | real x, real y => real (x + y)
  | real _, b => b
  | a, real _ => a
  | above, above => above
  | below, below => below
  | _, _ => undefined

/-- The product of two values, by the signs of the operands where one is special. -/
protected noncomputable def mul : Wide → Wide → Wide
  | real x, real y => real (x * y)
  | a, b => infinite (a.direction * b.direction)

/-- The quotient of two values, where a division by zero is special. -/
protected noncomputable def div : Wide → Wide → Wide
  | real x, real y => if y = 0 then infinite x else real (x / y)
  | real _, above | real _, below => real 0
  | a, real y => if y = 0 then a else infinite (a.direction * y)
  | _, _ => undefined

/-- The order of the values; the undefined one is not compared. -/
protected def Le : Wide → Wide → Prop
  | real x, real y => x ≤ y
  | below, undefined | undefined, _ | _, undefined => False
  | below, _ | _, above => True
  | _, _ => False

/-- The strict order of the values. -/
protected def Lt : Wide → Wide → Prop
  | real x, real y => x < y
  | below, real _ | below, above | real _, above => True
  | _, _ => False

/-- The absolute value. -/
noncomputable def abs : Wide → Wide
  | real x => real |x|
  | above | below => above
  | undefined => undefined

/-- The square root, undefined for what is negative. -/
noncomputable def sqrt : Wide → Wide
  | real x => if x < 0 then undefined else real (Real.sqrt x)
  | above => above
  | _ => undefined

/-- The logarithm of one plus a value, undefined for what is below minus one. -/
noncomputable def log1p : Wide → Wide
  | real x => if x < -1 then undefined else if x = -1 then below else real (Real.log (1 + x))
  | above => above
  | _ => undefined

/-- A power with an integer exponent. -/
noncomputable def pow (a : Wide) (n : ℤ) : Wide :=
  match a with
  | real x => if x = 0 ∧ n < 0 then above else real (x ^ n)
  | a => if n = 0 then real 1 else if n < 0 then real 0 else infinite (a.direction ^ n)

/-- Whether a value is a real number. -/
def isReal : Wide → Bool
  | real _ => true
  | _ => false

/-- The real number that a value is, and zero for a special value. -/
def toReal : Wide → ℝ
  | real x => x
  | _ => 0

/-- The real numbers with special values are scalars. -/
noncomputable instance : Scalar Wide where
  zero := real 0
  one := real 1
  natCast n := real n
  add := Wide.add
  sub a b := Wide.add a b.neg
  mul := Wide.mul
  div := Wide.div
  neg := Wide.neg
  le := Wide.Le
  lt := Wide.Lt
  leDecidable _ _ := Classical.propDecidable _
  ltDecidable _ _ := Classical.propDecidable _
  abs := abs
  sqrt := sqrt
  log1p := log1p
  pow := pow
  ceil a := ⌈a.toReal⌉
  roundEven a := Exact.roundEven a.toReal
  decimal m k := real (Scalar.decimal m k)
  isFinite := isReal
  isAbove
    | above => true
    | _ => false

variable (x y : ℝ) (a b : Wide)

section Real

/-- Zero is a real number. -/
@[simp] theorem zero_eq : (0 : Wide) = real 0 := rfl

/-- One is a real number. -/
@[simp] theorem one_eq : (1 : Wide) = real 1 := rfl

/-- The natural numbers are real numbers. -/
@[simp] theorem natCast_eq (n : ℕ) : (n : Wide) = real n := rfl

/-- The sum of real numbers is exact. -/
@[simp] theorem real_add : real x + real y = real (x + y) := rfl

/-- The difference of real numbers is exact. -/
@[simp] theorem real_sub : real x - real y = real (x - y) := by
  rw [sub_eq_add_neg]
  rfl

/-- The product of real numbers is exact. -/
@[simp] theorem real_mul : real x * real y = real (x * y) := rfl

/-- The opposite of a real number is exact. -/
@[simp] theorem neg_real : -real x = real (-x) := rfl

/-- The absolute value of a real number is exact. -/
@[simp] theorem abs_real : Scalar.abs (real x) = real |x| := rfl

/-- Decimal fractions are real numbers. -/
@[simp] theorem decimal_eq (m k : ℕ) :
    (Scalar.decimal m k : Wide) = real (Scalar.decimal m k) := rfl

/-- Real numbers are compared as such. -/
@[simp] theorem real_le_real : real x ≤ real y ↔ x ≤ y := Iff.rfl

/-- Real numbers are compared strictly as such. -/
@[simp] theorem real_lt_real : real x < real y ↔ x < y := Iff.rfl

/-- The quotient of real numbers is exact unless the divisor is zero. -/
theorem real_div {y : ℝ} (hy : y ≠ 0) : real x / real y = real (x / y) := if_neg hy

/-- The square root of a real number that is not negative is exact. -/
theorem sqrt_real {x : ℝ} (hx : 0 ≤ x) : Scalar.sqrt (real x) = real (Real.sqrt x) :=
  if_neg (not_lt.mpr hx)

end Real

section Finite

/-- Real numbers are finite. -/
@[simp] theorem isFinite_real : Scalar.isFinite (real x) = true := rfl

/-- What is finite is a real number. -/
theorem exists_eq_real {a : Wide} (h : Scalar.isFinite a = true) : ∃ x, a = real x := by
  cases a with
  | real x => exact ⟨x, rfl⟩
  | above => cases h
  | below => cases h
  | undefined => cases h

/-- An infinite value is above, below or undefined. -/
theorem infinite_cases : infinite x = above ∨ infinite x = below ∨ infinite x = undefined := by
  unfold infinite
  split
  · exact Or.inl rfl
  · split
    · exact Or.inr (Or.inl rfl)
    · exact Or.inr (Or.inr rfl)

/-- An infinite value is not finite. -/
@[simp] theorem isFinite_infinite : Scalar.isFinite (infinite x) = false := by
  rcases infinite_cases x with h | h | h
  all_goals
    rw [h]
    rfl

/-- A sum is finite exactly if both operands are. -/
theorem isFinite_add : Scalar.isFinite (a + b) = (Scalar.isFinite a && Scalar.isFinite b) := by
  cases a <;> cases b <;> rfl

/-- A difference is finite exactly if both operands are. -/
theorem isFinite_sub : Scalar.isFinite (a - b) = (Scalar.isFinite a && Scalar.isFinite b) := by
  cases a <;> cases b <;> rfl

/-- A product is finite exactly if both factors are. -/
theorem isFinite_mul : Scalar.isFinite (a * b) = (Scalar.isFinite a && Scalar.isFinite b) := by
  cases a <;> cases b
  case real.real => rfl
  all_goals exact isFinite_infinite _

/-- A quotient by a real number is finite only if the number is not zero. -/
theorem isFinite_div_real (h : Scalar.isFinite (a / real y) = true) :
    Scalar.isFinite a = true ∧ y ≠ 0 := by
  have hzero : ∀ {b : Wide}, Scalar.isFinite b = false →
      Scalar.isFinite (if y = 0 then b else infinite (b.direction * y)) = false := by
    intro b hb
    split
    · exact hb
    · exact isFinite_infinite _
  cases a with
  | real x =>
    refine ⟨rfl, ?_⟩
    rintro rfl
    have hinfinite : real x / real 0 = infinite x := if_pos rfl
    rw [hinfinite, isFinite_infinite] at h
    cases h
  | above => exact absurd ((hzero rfl).symm.trans h) Bool.false_ne_true
  | below => exact absurd ((hzero rfl).symm.trans h) Bool.false_ne_true
  | undefined => exact absurd ((hzero rfl).symm.trans h) Bool.false_ne_true

/-- What has a finite square root is finite. -/
theorem isFinite_of_sqrt (h : Scalar.isFinite (Scalar.sqrt a) = true) :
    Scalar.isFinite a = true := by
  cases a with
  | real x => rfl
  | above => cases h
  | below => cases h
  | undefined => cases h

/-- A sum of a list is finite exactly if all its elements are. -/
theorem isFinite_sum (l : List Wide) : Scalar.isFinite l.sum = l.all Scalar.isFinite := by
  induction l with
  | nil => rfl
  | cons a rest ih => rw [List.sum_cons, isFinite_add, ih, List.all_cons]

end Finite

section Lists

variable (l k : List ℝ)

/-- The sum of a list of real numbers is exact. -/
theorem sum_map_real : (l.map real).sum = real l.sum := by
  induction l with
  | nil => rfl
  | cons x rest ih => rw [List.map_cons, List.sum_cons, ih, real_add, List.sum_cons]

/-- The norm of a list of real numbers is exact. -/
theorem norm_map_real : Scalar.norm (l.map real) = real (Scalar.norm l) := by
  have hsquares : (l.map real).map Scalar.square = (l.map Scalar.square).map real := by
    rw [List.map_map, List.map_map]
    rfl
  have hnonneg : 0 ≤ (l.map Scalar.square).sum := by
    apply List.sum_nonneg
    intro y hy
    obtain ⟨x, -, rfl⟩ := List.mem_map.mp hy
    rw [Exact.square_eq]
    exact sq_nonneg x
  unfold Scalar.norm
  rw [hsquares, sum_map_real, sqrt_real hnonneg]
  rfl

/-- The larger one of two real numbers is chosen as such. -/
theorem larger_real : Scalar.larger (real x) (real y) = real (Scalar.larger x y) := by
  unfold Scalar.larger
  simp only [real_lt_real]
  split <;> rfl

/-- The largest absolute value of real numbers is exact. -/
theorem largestAbs_map_real : Scalar.largestAbs (l.map real) = real (Scalar.largestAbs l) := by
  have hfold : ∀ (l : List ℝ) (m : ℝ),
      (l.map real).foldl (fun m x => Scalar.larger m (Scalar.abs x)) (real m) =
        real (l.foldl (fun m x => Scalar.larger m (Scalar.abs x)) m) := by
    intro l
    induction l with
    | nil => exact fun m => rfl
    | cons x rest ih =>
      intro m
      rw [List.map_cons, List.foldl_cons, abs_real, larger_real]
      exact ih _
  exact hfold l 0

end Lists

end Wide

end Projectivity
