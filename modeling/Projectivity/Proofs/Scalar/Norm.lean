import Projectivity.Matrix.Basic
import Projectivity.Proofs.Scalar.Double

/-!
# Norms of doubles

Squares, sums of squares and their roots are never negative, and they are undefined only
if one of the entries is.  The norm of a matrix of numbers can therefore be compared,
also where it is beyond all doubles.
-/

set_option autoImplicit false

namespace Projectivity.Double

open Float.Model (UnpackedFloat Format)
open Float.Model.UnpackedFloat

section Undefined

/-- A double can be compared with itself exactly if it is not undefined. -/
theorem le_refl_iff (x : Float) : x ≤ x ↔ x.isNaN = false := by
  change _ ↔ x.toModel.unpack.isNaN = false
  rw [le_iff_rank]
  rcases x.toModel.unpack with (_ | _) | _ | _ | ⟨_ | _, m, e, hm⟩ <;> simp [rank, isNaN]

/-- The larger one of two doubles can be compared with itself. -/
theorem le_refl_of_lt {x y : Float} (h : x < y) : y ≤ y := by
  obtain ⟨-, b, -, hb, -⟩ := (lt_iff_rank _ _).mp h
  exact (le_iff_rank _ _).mpr ⟨b, b, hb, hb, le_rfl⟩

/-- What is finite is not undefined. -/
theorem isNaN_of_isFinite {x : Float} (h : x.isFinite = true) : x.isNaN = false := by
  change x.toModel.unpack.isNaN = false
  change x.toModel.unpack.isFinite = true at h
  cases hx : x.toModel.unpack with
  | notANumber =>
    rw [hx] at h
    cases h
  | _ => rfl

/-- Before it is packed, the absolute value of a number is not negative. -/
theorem notNegative_abs {u : UnpackedFloat} (h : u.isNaN = false) : NotNegative u.abs := by
  cases u with
  | notANumber => cases h
  | _ => trivial

/-- An absolute value is undefined exactly if the double is. -/
theorem isNaN_abs (x : Float) : (Scalar.abs x).isNaN = x.isNaN := by
  cases hx : x.isNaN with
  | false =>
    have hnonneg : 0 ≤ Scalar.abs x :=
      (zero_le_iff _).mpr (notNegative_pack (notNegative_abs hx))
    exact (le_refl_iff _).mp (Scalar.Ordered.le_refl_right hnonneg)
  | true =>
    change (unpack Format.binary64 (pack Format.binary64 x.toModel.unpack.abs)).isNaN = true
    change x.toModel.unpack.isNaN = true at hx
    cases hu : x.toModel.unpack with
    | notANumber => rfl
    | _ =>
      rw [hu] at hx
      cases hx

end Undefined

section Nonneg

/-- Before it is packed, the square of a number is not negative. -/
theorem notNegative_mul_self {u : UnpackedFloat} (h : u.isNaN = false) :
    NotNegative (mul Format.binary64 u u) := by
  have hsign : ∀ s : Sign, s * s = .positive := fun s => by cases s <;> rfl
  cases u with
  | notANumber => cases h
  | infinity s => cases s <;> trivial
  | zero s => trivial
  | finite s m e hm =>
    unfold mul roundWithAccuracy
    simp only [hsign]
    split <;> trivial

/-- A square is not negative. -/
theorem square_nonneg {x : Float} (h : x.isNaN = false) : 0 ≤ Scalar.square x :=
  (zero_le_iff _).mpr (notNegative_pack (notNegative_mul_self h))

/-- A sum of what is not negative is not negative. -/
theorem sum_nonneg {l : List Float} (h : ∀ x ∈ l, 0 ≤ x) : 0 ≤ l.sum := by
  induction l with
  | nil => exact Scalar.Ordered.zero_le_zero
  | cons x rest ih =>
    rw [List.forall_mem_cons] at h
    rw [List.sum_cons]
    exact Scalar.Ordered.add_nonneg h.1 (ih h.2)

/-- Before it is packed, the square root of what is not negative is not negative. -/
theorem notNegative_sqrt {u : UnpackedFloat} (h : NotNegative u) :
    NotNegative (UnpackedFloat.sqrt Format.binary64 u) := by
  rcases u with (_ | _) | _ | _ | ⟨_ | _, m, e, hm⟩
  case finite.positive =>
    unfold UnpackedFloat.sqrt roundWithAccuracy
    simp only
    split <;> trivial
  all_goals trivial

/-- A square root is not negative. -/
theorem sqrt_nonneg {x : Float} (h : 0 ≤ x) : 0 ≤ Scalar.sqrt x :=
  (zero_le_iff _).mpr (notNegative_pack (notNegative_sqrt ((zero_le_iff x).mp h)))

/-- A norm is not negative. -/
theorem norm_nonneg {l : List Float} (h : ∀ x ∈ l, x.isNaN = false) : 0 ≤ Scalar.norm l := by
  refine sqrt_nonneg (sum_nonneg ?_)
  rw [List.forall_mem_map]
  exact fun x hx => square_nonneg (h x hx)

/-- Before it is packed, the product of a positive number and what is not negative is not
negative. -/
theorem notNegative_mul {u : UnpackedFloat} {m : ℕ} {e : ℤ} (hm : 0 < m) (hu : NotNegative u) :
    NotNegative (mul Format.binary64 (.finite .positive m e hm) u) := by
  rcases u with (_ | _) | _ | _ | ⟨_ | _, n, f, hn⟩
  case finite.positive =>
    unfold mul roundWithAccuracy
    simp only
    split <;> trivial
  all_goals trivial

end Nonneg

/-- The tolerance of the rank has a mantissa and an exponent. -/
theorem exists_unpack_decimal : ∃ m e hm,
    (Scalar.decimal 1 12 : Float).toModel.unpack = .finite .positive m e hm :=
  ⟨_, _, _, rfl⟩

/-- The bound for last coordinates is a number, as large as the entries of the matrix may be. -/
theorem bound_nonneg {A : Matrix3 Float} (h : A.isFinite = true) :
    0 ≤ (Scalar.decimal 1 12 : Float) * A.norm := by
  have hnorm : 0 ≤ A.norm :=
    norm_nonneg fun x hx => isNaN_of_isFinite (List.all_eq_true.mp h x hx)
  obtain ⟨m, e, hm, hdecimal⟩ := exists_unpack_decimal
  have hproduct := notNegative_mul (e := e) hm ((zero_le_iff _).mp hnorm)
  rw [← hdecimal] at hproduct
  exact (zero_le_iff _).mpr (notNegative_pack hproduct)

end Projectivity.Double
