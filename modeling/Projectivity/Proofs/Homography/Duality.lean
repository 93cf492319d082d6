import Projectivity.Proofs.Exact.Inverse
import Projectivity.Proofs.Homography.Factor
import Projectivity.Proofs.Homography.Improvement

/-!
# The duality of the two views

What a transform does to the destinations is what its inverse does to the sources of the
pairs read backwards.  The error in the source view is therefore the error of the inverse
in its destination view, and the symmetric error is the same for both, points at infinity
included.  The same holds for the costs, and the symmetric cost is the sum of the two
others.
-/

set_option autoImplicit false

namespace Projectivity

open Wide (real)

/-- The views of a correspondence that are exchanged twice are as they were. -/
theorem Correspondence.swap_swap {α : Type} (c : Correspondence α) : c.swap.swap = c := rfl

section Views

variable {α : Type} [Scalar α] [Spectral α] {H : Matrix3 α}

/-- The preimage under a transform is the image under its inverse. -/
theorem Transfer.inverseError_eq_forwardError
    (h : H.isNonSingular Matrix3.rankTolerance = true) (c : Correspondence α) :
    Transfer.inverseError H c = Transfer.forwardError H.inverse c.swap := if_pos h

/-- The differences in the first view are those of the inverse in the second. -/
theorem ErrorVector.inverse_eq_forward (h : H.isNonSingular Matrix3.rankTolerance = true)
    (data : List (Correspondence α)) :
    ErrorVector.inverse H data = ErrorVector.forward H.inverse (data.map Correspondence.swap) := by
  unfold ErrorVector.inverse ErrorVector.forward
  rw [if_pos h, List.flatMap_map]
  rfl

end Views

section Sums

/-- The order of two summands does not matter. -/
protected theorem Wide.add_comm (a b : Wide) : a + b = b + a := by
  cases a <;> cases b
  case real.real x y => exact congrArg real (add_comm x y)
  all_goals rfl

/-- The order of two residuals in a sum does not matter. -/
theorem Extended.add_comm (x y : Extended Wide) : x.add y = y.add x := by
  cases x with
  | infinite => cases y <;> rfl
  | finite a =>
    cases y with
    | infinite => rfl
    | finite b => exact congrArg Extended.ofScalar (Wide.add_comm a b)

/-- The squared length of a vector made of two is the sum of the two squared lengths. -/
theorem Wide.dot_append {v w : List Wide} (hv : ∀ x ∈ v, Scalar.isFinite x = true)
    (hw : ∀ x ∈ w, Scalar.isFinite x = true) :
    Scalar.dot (v ++ w) (v ++ w) = Scalar.dot v v + Scalar.dot w w := by
  have hreal : ∀ {v : List Wide}, (∀ x ∈ v, Scalar.isFinite x = true) →
      ∃ l : List ℝ, v = l.map real := by
    intro v hv
    refine ⟨v.map Wide.toReal, ?_⟩
    rw [List.map_map]
    refine ((List.map_congr_left fun x hx => ?_).trans (List.map_id v)).symm
    obtain ⟨y, rfl⟩ := Wide.exists_eq_real (hv x hx)
    rfl
  obtain ⟨l, rfl⟩ := hreal hv
  obtain ⟨k, rfl⟩ := hreal hw
  rw [← List.map_append, ErrorVector.dot_map_real, ErrorVector.dot_map_real,
    ErrorVector.dot_map_real, ErrorVector.squares_append, Wide.real_add]

end Sums

section Costs

variable [Spectral Wide] (H : Matrix3 Wide) (data : List (Correspondence Wide))

/-- The symmetric cost is the sum of the costs in the two views. -/
theorem Refinement.symmetric_cost_eq_add : Refinement.symmetric.cost H data =
    Refinement.forward.cost H data + Refinement.inverse.cost H data :=
  Wide.dot_append (ErrorVector.isFinite_forward H data) (ErrorVector.isFinite_inverse H data)

/-- The cost in the first view is that of the inverse in the second. -/
theorem Refinement.inverse_cost_eq {H : Matrix3 Wide}
    (h : H.isNonSingular Matrix3.rankTolerance = true) : Refinement.inverse.cost H data =
      Refinement.forward.cost H.inverse (data.map Correspondence.swap) := by
  unfold Refinement.cost Refinement.vector
  simp only [ErrorVector.inverse_eq_forward h]

end Costs

/-- Two transforms of which the second undoes the first, as residuals and costs show them: what is
measured under the first one is what is measured under the second one on the pairs read
backwards. -/
structure Matrix3.Dual [Spectral Wide] (H K : Matrix3 Wide) (data : List (Correspondence Wide)) :
    Prop where
  regular : K.isNonSingular Matrix3.rankTolerance = true
  residual_inverse : data.map (Transfer.inverse.residual H) =
    (data.map Correspondence.swap).map (Transfer.forward.residual K)
  residual_symmetric : data.map (Transfer.symmetric.residual H) =
    (data.map Correspondence.swap).map (Transfer.symmetric.residual K)
  cost_inverse : Refinement.inverse.cost H data =
    Refinement.forward.cost K (data.map Correspondence.swap)
  cost_symmetric : Refinement.symmetric.cost H data =
    Refinement.symmetric.cost K (data.map Correspondence.swap)

section Inverses

variable [Spectral Wide] [Spectral.WideExact] {H : Matrix3 Wide}
variable (h : H.isNonSingular Matrix3.rankTolerance = true)
include h

/-- The two views of a transform change places under its inverse. -/
theorem Transfer.residual_symmetric_inverse (c : Correspondence Wide) :
    Transfer.symmetric.residual H c = Transfer.symmetric.residual H.inverse c.swap := by
  have hback := Matrix3.inverse_inverse_of_isNonSingular Matrix3.tolerance_nonneg h
  have hregular := Matrix3.isNonSingular_inverse Matrix3.tolerance_nonneg h
  calc Transfer.symmetric.residual H c
      = (Transfer.forwardError H c).add (Transfer.forwardError H.inverse c.swap) := by
        rw [← Transfer.inverseError_eq_forwardError h]
        rfl
    _ = (Transfer.forwardError H.inverse c.swap).add
          (Transfer.forwardError H.inverse.inverse c.swap.swap) := by
        rw [hback, Correspondence.swap_swap, Extended.add_comm]
    _ = Transfer.symmetric.residual H.inverse c.swap := by
        rw [← Transfer.inverseError_eq_forwardError hregular]
        rfl

variable (data : List (Correspondence Wide))

/-- The symmetric cost adds up the same two costs under the inverse. -/
theorem Refinement.symmetric_cost_inverse : Refinement.symmetric.cost H data =
    Refinement.symmetric.cost H.inverse (data.map Correspondence.swap) := by
  have hback := Matrix3.inverse_inverse_of_isNonSingular Matrix3.tolerance_nonneg h
  have hregular := Matrix3.isNonSingular_inverse Matrix3.tolerance_nonneg h
  have hforward : Refinement.inverse.cost H.inverse (data.map Correspondence.swap) =
      Refinement.forward.cost H data := by
    rw [Refinement.inverse_cost_eq _ hregular, hback, List.map_map,
      List.map_congr_left fun c _ => c.swap_swap, List.map_id']
  rw [Refinement.symmetric_cost_eq_add, Refinement.symmetric_cost_eq_add,
    ← Refinement.inverse_cost_eq data h, hforward, Wide.add_comm]

/-- The inverse of a transform that counts as non-singular is dual to it, and the symmetric cost of
the transform is the sum of its costs in the two views. -/
theorem Matrix3.dual_inverse : H.Dual H.inverse data ∧ Refinement.symmetric.cost H data =
    Refinement.forward.cost H data + Refinement.inverse.cost H data := by
  refine ⟨⟨isNonSingular_inverse tolerance_nonneg h, ?_, ?_, Refinement.inverse_cost_eq data h,
    Refinement.symmetric_cost_inverse h data⟩, Refinement.symmetric_cost_eq_add H data⟩
  · rw [List.map_map]
    exact List.map_congr_left fun c _ => Transfer.inverseError_eq_forwardError h c
  · rw [List.map_map]
    exact List.map_congr_left fun c _ => Transfer.residual_symmetric_inverse h c

end Inverses

/-- The duality of a transform that maps the source of one of two pairs to infinity, and the
destination of the other one back from there. -/
theorem Matrix3.dual_inverse_perspective :
    letI : Spectral Wide := Spectral.chosen.widen
    let H := perspective.widen
    let data : List (Correspondence Wide) :=
      [⟨⟨real (-1), real 3⟩, ⟨real 0, real 0⟩⟩, ⟨⟨real 1, real 4⟩, ⟨real 1, real 2⟩⟩]
    H.isNonSingular rankTolerance = true ∧ H.Dual H.inverse data ∧
      Refinement.symmetric.cost H data =
        Refinement.forward.cost H data + Refinement.inverse.cost H data := by
  intro H data
  let spectral : Spectral Wide := Spectral.chosen.widen
  have hexact : Spectral.WideExact := Spectral.widen_exact Spectral.chosen_exact
  have hregular : H.isNonSingular rankTolerance = true :=
    (isNonSingular_widen_iff perspective).mpr regular_perspective
  exact ⟨hregular, dual_inverse hregular data⟩

end Projectivity
