import Projectivity.Homography.Refinement
import Projectivity.Proofs.Exact.Linear

/-!
# Exact costs

Over exact scalars a cost is a sum of squares, so it is zero only if every residual is.
In each of the four modes a transform of cost zero carries all correspondences, and a
transform that matches them in both views has cost zero.
-/

set_option autoImplicit false

namespace Projectivity

/-- A transform matches a correspondence if it projects the source onto the destination and its
inverse projects the destination onto the source. -/
structure Matrix3.Matches (H : Matrix3 ℝ) (c : Correspondence ℝ) : Prop where
  forward : H.project? infinityTolerance c.source = some c.destination
  inverse : H.inverse.project? infinityTolerance c.destination = some c.source

/-- The tolerance of the test for infinity is positive. -/
theorem Matrix3.infinityTolerance_pos : (0 : ℝ) < infinityTolerance :=
  Exact.decimal_pos Nat.one_pos 12

/-- What matches is carried. -/
theorem Matrix3.Matches.carries {H : Matrix3 ℝ} {c : Correspondence ℝ} (h : H.Matches c) :
    H.Carries c :=
  Matrix3.carries_of_project Matrix3.infinityTolerance_pos.le h.forward

/-- Which correspondences a transform matches does not depend on its factor. -/
theorem Matrix3.Matches.of_proportional {H K : Matrix3 ℝ} {c : Correspondence ℝ}
    (h : H.Matches c) (hdet : H.det ≠ 0) (hprop : K.Proportional H) : K.Matches c := by
  refine ⟨?_, ?_⟩
  · rw [hprop.project?]
    exact h.forward
  · rw [(hprop.inverse hdet).project?]
    exact h.inverse

namespace Exact

/-- The product of a vector with itself is not negative. -/
theorem dot_self_nonneg (r : List ℝ) : 0 ≤ Scalar.dot r r := by
  unfold Scalar.dot
  induction r with
  | nil => exact le_refl 0
  | cons x rest ih =>
    rw [List.zipWith_cons_cons, List.sum_cons]
    exact add_nonneg (mul_self_nonneg x) ih

/-- Only a vector of zeros has length zero. -/
theorem dot_self_eq_zero_iff (r : List ℝ) : Scalar.dot r r = 0 ↔ ∀ x ∈ r, x = 0 := by
  induction r with
  | nil => simp [Scalar.dot]
  | cons x rest ih =>
    have hrest := dot_self_nonneg rest
    have hsplit : Scalar.dot (x :: rest) (x :: rest) = x * x + Scalar.dot rest rest := by
      unfold Scalar.dot
      rw [List.zipWith_cons_cons, List.sum_cons]
    rw [hsplit, List.forall_mem_cons, ← ih,
      add_eq_zero_iff_of_nonneg (mul_self_nonneg x) hrest, mul_self_eq_zero]

end Exact

namespace ErrorVector

/-- The penalty is not zero. -/
theorem penalty_ne_zero : (penalty : ℝ) ≠ 0 := by
  simp [penalty]

/-- An image differs from its target by zero exactly if it is the target. -/
theorem difference_eq_zero_iff (target : Point ℝ) (image : Option (Point ℝ)) :
    (∀ x ∈ difference target image, x = 0) ↔ image = some target := by
  cases image with
  | none =>
    simp only [difference, List.forall_mem_cons, penalty_ne_zero, false_and, reduceCtorEq]
  | some p =>
    obtain ⟨px, py⟩ := p
    obtain ⟨tx, ty⟩ := target
    simp only [difference, penalize, Exact.isFinite_eq, if_true, List.forall_mem_cons,
      List.not_mem_nil, false_imp_iff, implies_true, and_true, sub_eq_zero, Option.some.injEq,
      Point.mk.injEq, eq_comm]

variable {H : Matrix3 ℝ} {data : List (Correspondence ℝ)}

/-- The differences in the destination view are zero exactly if every source is projected onto its
destination. -/
theorem forward_eq_zero_iff : (∀ x ∈ forward H data, x = 0) ↔
    ∀ c ∈ data, H.project? Matrix3.infinityTolerance c.source = some c.destination := by
  simp only [forward, List.forall_mem_flatMap, difference_eq_zero_iff]

variable [Spectral ℝ]

/-- The differences in the source view of some correspondences are zero exactly if the transform
counts as non-singular and its inverse projects every destination onto its source. -/
theorem inverse_eq_zero_iff (hdata : data ≠ []) : (∀ x ∈ inverse H data, x = 0) ↔
    H.isNonSingular Matrix3.rankTolerance = true ∧
      ∀ c ∈ data, H.inverse.project? Matrix3.infinityTolerance c.destination = some c.source := by
  unfold inverse
  split
  · rename_i hregular
    simp only [List.forall_mem_flatMap, difference_eq_zero_iff, hregular, true_and]
  · rename_i hsingular
    simp only [hsingular, Bool.false_eq_true, false_and, iff_false]
    intro hzero
    apply penalty_ne_zero
    apply hzero
    have hlength := List.length_pos_iff.mpr hdata
    simp only [penalties, List.mem_replicate, and_true]
    omega

end ErrorVector

namespace Sampson

variable {H : Matrix3 ℝ} {c : Correspondence ℝ}

/-- There are no errors exactly if the correspondence is carried. -/
theorem errors_eq_zero_iff : errors H c = (0, 0) ↔ H.Carries c := by
  rw [Matrix3.carries_iff]
  simp only [errors, Prod.mk.injEq]
  constructor
  · rintro ⟨hy, hx⟩
    exact ⟨by linarith, by linarith⟩
  · rintro ⟨hx, hy⟩
    exact ⟨by linarith, by linarith⟩

/-- The multipliers solve the linear system of the products of the two rows. -/
theorem multipliers_spec (J : List ℝ × List ℝ) (e : ℝ × ℝ) (hgram : gramDeterminant J ≠ 0) :
    Scalar.dot J.1 J.1 * (multipliers J e).1 + Scalar.dot J.1 J.2 * (multipliers J e).2 = e.1 ∧
      Scalar.dot J.2 J.1 * (multipliers J e).1 + Scalar.dot J.2 J.2 * (multipliers J e).2 =
        e.2 := by
  have hcancel := mul_inv_cancel₀ hgram
  simp only [multipliers, div_eq_mul_inv]
  generalize (gramDeterminant J)⁻¹ = k at hcancel
  unfold gramDeterminant at hcancel
  constructor
  · linear_combination e.1 * hcancel
  · linear_combination e.2 * hcancel

/-- A correction of zero means that both equations hold: the correction solves them to first
order. -/
theorem errors_eq_zero_of_correction {d : List ℝ} (h : correction? H c = some d)
    (hzero : ∀ x ∈ d, x = 0) : errors H c = (0, 0) := by
  unfold correction? at h
  simp only at h
  split at h
  · rename_i hbound
    have hgram : gramDeterminant (jacobian H c) ≠ 0 := by
      intro hdet
      rw [hdet, Exact.abs_eq, abs_zero] at hbound
      exact absurd hbound (not_lt.mpr (Exact.decimal_pos Nat.one_pos 300).le)
    rw [Option.some.injEq] at h
    subst h
    obtain ⟨hfirst, hsecond⟩ := multipliers_spec (jacobian H c) (errors H c) hgram
    generalize multipliers (jacobian H c) (errors H c) = m at hfirst hsecond hzero
    refine Prod.ext (hfirst.symm.trans ?_) (hsecond.symm.trans ?_)
    all_goals
      unfold jacobian at hzero ⊢
      simp only [List.zipWith_cons_cons, List.zipWith_nil_left, List.forall_mem_cons] at hzero
      obtain ⟨hx, hy, hu, hv, -⟩ := hzero
      simp only [Scalar.dot, List.zipWith_cons_cons, List.zipWith_nil_left, List.sum_cons,
        List.sum_nil]
    · linear_combination -(-H.m21 + c.destination.y * H.m31) * hx -
        (-H.m22 + c.destination.y * H.m32) * hy - (H.apply c.source).w * hv
    · linear_combination -(H.m11 - c.destination.x * H.m31) * hx -
        (H.m12 - c.destination.x * H.m32) * hy + (H.apply c.source).w * hu
  · cases h

/-- The determinant is at least the fourth power of the last coordinate of the image. -/
theorem pow_four_le_gramDeterminant :
    (H.apply c.source).w ^ 4 ≤ gramDeterminant (jacobian H c) := by
  unfold jacobian gramDeterminant
  simp only
  generalize -H.m21 + c.destination.y * H.m31 = p
  generalize -H.m22 + c.destination.y * H.m32 = q
  generalize H.m11 - c.destination.x * H.m31 = r
  generalize H.m12 - c.destination.x * H.m32 = s
  generalize (H.apply c.source).w = w
  simp only [Scalar.dot, List.zipWith_cons_cons, List.zipWith_nil_left, List.sum_cons,
    List.sum_nil]
  have hminor : 0 ≤ (p * s - q * r) ^ 2 := sq_nonneg _
  have hside : 0 ≤ w ^ 2 * (p ^ 2 + q ^ 2 + r ^ 2 + s ^ 2) := by positivity
  linarith

/-- A correspondence that matches needs no correction. -/
theorem correction_eq_zero (hnorm : H.norm = 1) (h : H.Matches c) :
    ∃ d, correction? H c = some d ∧ ∀ x ∈ d, x = 0 := by
  have hbound : determinantBound < Scalar.abs (gramDeterminant (jacobian H c)) := by
    -- The image is not at infinity, and the fourth power of that bound is above this one.
    have hw := (Matrix3.project?_eq_some_iff.mp h.forward).1
    rw [hnorm, mul_one, Matrix3.infinityTolerance, Exact.decimal_eq] at hw
    have hgram := pow_four_le_gramDeterminant (H := H) (c := c)
    have hpower := pow_lt_pow_left₀ hw (by positivity) four_ne_zero
    rw [Even.pow_abs (by decide)] at hpower
    rw [determinantBound, Exact.decimal_eq, Exact.abs_eq]
    refine lt_of_lt_of_le (lt_of_le_of_lt ?_ hpower) (le_trans hgram (le_abs_self _))
    calc ((1 : ℕ) : ℝ) / 10 ^ 300 ≤ ((1 : ℕ) : ℝ) / 10 ^ 48 :=
          div_le_div_of_nonneg_left (by norm_num) (by positivity)
            (pow_le_pow_right₀ (by norm_num) (by norm_num))
      _ = (((1 : ℕ) : ℝ) / 10 ^ 12) ^ 4 := by norm_num
  have herrors := errors_eq_zero_iff.mpr h.carries
  refine ⟨_, by simp only [correction?, if_pos hbound]; rfl, ?_⟩
  have hmultipliers : multipliers (jacobian H c) (errors H c) = (0, 0) := by
    rw [herrors]
    simp [multipliers]
  rw [hmultipliers]
  simp [jacobian]

variable {data : List (Correspondence ℝ)}

/-- The corrections of correspondences that match are zero. -/
theorem vector_eq_zero (hnorm : H.norm = 1) (h : ∀ c ∈ data, H.Matches c) :
    ∀ x ∈ vector H data, x = 0 := by
  unfold vector
  rw [List.forall_mem_flatMap]
  intro c hc
  obtain ⟨d, hd, hzero⟩ := correction_eq_zero hnorm (h c hc)
  simp only [hd, List.forall_mem_map, ErrorVector.penalize, Exact.isFinite_eq, if_true]
  exact hzero

/-- Correspondences whose corrections are zero are carried. -/
theorem carries_of_vector_eq_zero (hzero : ∀ x ∈ vector H data, x = 0) :
    ∀ c ∈ data, H.Carries c := by
  unfold vector at hzero
  rw [List.forall_mem_flatMap] at hzero
  intro c hc
  have hcorrection := hzero c hc
  cases hd : correction? H c with
  | none =>
    simp only [hd] at hcorrection
    exact absurd (hcorrection _ (by simp)) ErrorVector.penalty_ne_zero
  | some d =>
    simp only [hd, List.forall_mem_map, ErrorVector.penalize, Exact.isFinite_eq,
      if_true] at hcorrection
    exact errors_eq_zero_iff.mp (errors_eq_zero_of_correction hd hcorrection)

end Sampson

namespace Refinement

variable [Spectral ℝ] {mode : Refinement} {H : Matrix3 ℝ} {data : List (Correspondence ℝ)}

/-- The cost is zero exactly if all errors are. -/
theorem cost_eq_zero_iff : mode.cost H data = 0 ↔ ∀ x ∈ mode.vector H data, x = 0 := by
  unfold cost
  exact Exact.dot_self_eq_zero_iff _

/-- The cost is not negative. -/
theorem cost_nonneg : 0 ≤ mode.cost H data := Exact.dot_self_nonneg _

/-- A transform of norm one that counts as non-singular and matches all correspondences has cost
zero in every mode. -/
theorem cost_eq_zero_of_matches (hdata : data ≠ []) (hnorm : H.norm = 1)
    (hregular : H.isNonSingular Matrix3.rankTolerance = true)
    (h : ∀ c ∈ data, H.Matches c) : mode.cost H data = 0 := by
  have hforward := ErrorVector.forward_eq_zero_iff.mpr fun c hc => (h c hc).forward
  have hinverse := (ErrorVector.inverse_eq_zero_iff hdata).mpr
    ⟨hregular, fun c hc => (h c hc).inverse⟩
  rw [cost_eq_zero_iff]
  cases mode with
  | off => exact hforward
  | forward => exact hforward
  | inverse => exact hinverse
  | symmetric => exact List.forall_mem_append.mpr ⟨hforward, hinverse⟩
  | sampson => exact Sampson.vector_eq_zero hnorm h

/-- A non-singular transform of cost zero carries all correspondences, whatever the mode is. -/
theorem carries_of_cost_eq_zero (hdet : H.det ≠ 0) (h : mode.cost H data = 0) :
    ∀ c ∈ data, H.Carries c := by
  have hforward : (∀ x ∈ ErrorVector.forward H data, x = 0) → ∀ c ∈ data, H.Carries c := by
    intro hzero c hc
    exact Matrix3.carries_of_project Matrix3.infinityTolerance_pos.le
      (ErrorVector.forward_eq_zero_iff.mp hzero c hc)
  have hinverse : (∀ x ∈ ErrorVector.inverse H data, x = 0) → ∀ c ∈ data, H.Carries c := by
    intro hzero c hc
    obtain ⟨-, hback⟩ := (ErrorVector.inverse_eq_zero_iff (List.ne_nil_of_mem hc)).mp hzero
    exact Matrix3.carries_of_inverse hdet
      (Matrix3.carries_of_project Matrix3.infinityTolerance_pos.le (hback c hc))
  rw [cost_eq_zero_iff] at h
  cases mode with
  | off => exact hforward h
  | forward => exact hforward h
  | inverse => exact hinverse h
  | symmetric => exact hforward (List.forall_mem_append.mp h).1
  | sampson => exact Sampson.carries_of_vector_eq_zero h

end Refinement

end Projectivity
