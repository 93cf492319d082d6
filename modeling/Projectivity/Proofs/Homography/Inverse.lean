import Projectivity.Homography.Basic
import Projectivity.Proofs.Exact.Inverse
import Projectivity.Proofs.Homography.Factor

/-!
# The inverse map undoes a homography

The inverse of a homography takes an image back to the point that it is the image of.
Both ways divide by a last coordinate, and these two are reciprocals of each other.  The
way back therefore ends at infinity exactly if the last coordinate of the way there is
too large for the norm of the inverse.
-/

set_option autoImplicit false

namespace Projectivity

open Wide (real)

namespace Point

/-- The coordinates of the point are finite numbers. -/
structure IsFinite {α : Type} [Scalar α] (p : Point α) : Prop where
  x : Scalar.isFinite p.x = true
  y : Scalar.isFinite p.y = true

/-- A finite point is a real one. -/
theorem IsFinite.exists_eq_widen {p : Point Wide} (h : p.IsFinite) : ∃ q : Point ℝ, p = q.widen := by
  obtain ⟨x, y⟩ := p
  obtain ⟨a, rfl⟩ := Wide.exists_eq_real h.x
  obtain ⟨b, rfl⟩ := Wide.exists_eq_real h.y
  exact ⟨⟨a, b⟩, rfl⟩

end Point

namespace Matrix3

section Exact

variable {H : Matrix3 ℝ} {tolerance : ℝ} {p q : Point ℝ}

/-- The homogeneous image of an image under the inverse is a multiple of the point. -/
theorem inverse_apply_dehomogenize (hdet : H.det ≠ 0) (hw : (H.apply p).w ≠ 0) :
    H.inverse.apply (H.apply p).dehomogenize = p.lift.scale (H.apply p).w⁻¹ := by
  have hlift : (H.apply p).dehomogenize.lift = (H.apply p).scale (H.apply p).w⁻¹ := by
    simp only [Point.lift, Homogeneous.dehomogenize, Homogeneous.scale, div_eq_inv_mul,
      inv_mul_cancel₀ hw]
  calc H.inverse.apply (H.apply p).dehomogenize
      = H.inverse.act ((H.apply p).scale (H.apply p).w⁻¹) := congrArg H.inverse.act hlift
    _ = (H.inverse.act (H.act p.lift)).scale (H.apply p).w⁻¹ := act_scale _ _ _
    _ = p.lift.scale (H.apply p).w⁻¹ := by rw [← act_mul, inverse_mul hdet, one_act]

/-- An image has the point as its image under the inverse, unless the inverse maps it to
infinity. -/
theorem inverse_project? (hdet : H.det ≠ 0) (htolerance : 0 ≤ tolerance)
    (hq : H.project? tolerance p = some q) : H.inverse.project? tolerance q =
      if |(H.apply p).w| * tolerance * H.inverse.norm < 1 then some p else none := by
  obtain ⟨hfinite, rfl⟩ := project?_eq_some_iff.mp hq
  have hpos : 0 < |(H.apply p).w| := lt_of_le_of_lt (mul_nonneg htolerance H.norm_nonneg) hfinite
  have hw : (H.apply p).w ≠ 0 := abs_pos.mp hpos
  have himage := inverse_apply_dehomogenize hdet hw
  have hlast : (p.lift.scale (H.apply p).w⁻¹).w = (H.apply p).w⁻¹ := mul_one _
  have hpoint : (p.lift.scale (H.apply p).w⁻¹).dehomogenize = p := by
    simp only [Homogeneous.dehomogenize, hlast]
    simp only [Homogeneous.scale, Point.lift, mul_div_cancel_left₀ _ (inv_ne_zero hw)]
  have hbound : tolerance * H.inverse.norm < |(H.apply p).w⁻¹| ↔
      |(H.apply p).w| * tolerance * H.inverse.norm < 1 := by
    rw [abs_inv, ← one_div, lt_div_iff₀ hpos, mul_comm _ |(H.apply p).w|, mul_assoc]
  unfold project?
  simp only [himage, hpoint, hlast, Exact.abs_eq, hbound]

end Exact

section Wide

/-- Real points are projected among the wide ones as they are. -/
theorem widen_project? (A : Matrix3 ℝ) {tolerance : ℝ} (htolerance : 0 ≤ tolerance) (p : Point ℝ) :
    A.widen.project? (real tolerance) p.widen = (A.project? tolerance p).map Point.widen := by
  have himage : A.widen.apply p.widen =
      ⟨real (A.apply p).x, real (A.apply p).y, real (A.apply p).w⟩ := rfl
  unfold project?
  simp only [himage, widen_norm, Wide.real_mul, Wide.abs_real, Wide.real_lt_real, Exact.abs_eq]
  split
  · rename_i hfinite
    have hw : (A.apply p).w ≠ 0 :=
      abs_pos.mp (lt_of_le_of_lt (mul_nonneg htolerance A.norm_nonneg) hfinite)
    simp only [Homogeneous.dehomogenize, Wide.real_div _ hw]
    rfl
  · rfl

end Wide

end Matrix3

namespace Homography

/-- A finite row is the image of a real point under a real transform. -/
theorem exists_project?_of_isFinite {A : Matrix3 ℝ} {x : Point ℝ}
    (h : (row .above (A.widen.project? Matrix3.infinityTolerance x.widen)).IsFinite) :
    ∃ y, A.project? Matrix3.infinityTolerance x = some y ∧
      row .above (A.widen.project? Matrix3.infinityTolerance x.widen) = y.widen := by
  have himage : A.widen.project? Matrix3.infinityTolerance x.widen =
      (A.project? Matrix3.infinityTolerance x).map Point.widen :=
    A.widen_project? Matrix3.tolerance_nonneg x
  rw [himage] at h ⊢
  cases hy : A.project? Matrix3.infinityTolerance x with
  | none =>
    rw [hy] at h
    exact absurd h.x Bool.false_ne_true
  | some y => exact ⟨y, rfl, rfl⟩

/-- One homography takes the images of points under another one back.  A row that is finite goes
back to the point that it came from, or to infinity, and back to the point exactly if the last
coordinate of the way there leaves room for the norm of the homography that goes back. -/
def TakesBack (K H : Homography Wide) (points : List (Point Wide)) : Prop :=
  ∀ (i : ℕ) (p : Point Wide), points[i]? = some p →
    ∃ q r, (H.rows .above points)[i]? = some q ∧
      (K.rows .above (H.rows .above points))[i]? = some r ∧
      (q.IsFinite → (r = p ∨ r = ⟨.above, .above⟩) ∧
        (r = p ↔
          Scalar.abs (H.matrix.apply p).w * Matrix3.infinityTolerance * K.matrix.norm < 1))

section Regular

variable [Spectral Wide] [Spectral.WideExact] {H : Homography Wide}

/-- A homography that counts as non-singular has an inverse, since the inverse matrix is finite. -/
theorem inverse_eq_ok (h : H.matrix.isNonSingular Matrix3.rankTolerance = true) :
    H.inverse = .ok ⟨H.matrix.inverse⟩ := by
  have hregular := Matrix3.isNonSingular_inverse Matrix3.tolerance_nonneg h
  obtain ⟨A, hA, -⟩ := Matrix3.exists_regular hregular
  have hfinite : H.matrix.inverse.isFinite = true := by
    rw [hA]
    exact A.isFinite_widen
  unfold inverse ofMatrix
  rw [if_pos h, if_pos hfinite]

/-- The homography takes back what its inverse does to finite points. -/
theorem takesBack_inverse (h : H.matrix.isNonSingular Matrix3.rankTolerance = true)
    {points : List (Point Wide)} (hpoints : ∀ p ∈ points, p.IsFinite) :
    TakesBack ⟨H.matrix.inverse⟩ H points := by
  obtain ⟨A, hA, hregular⟩ := Matrix3.exists_regular h
  have hdet := hregular.det_ne_zero Matrix3.tolerance_nonneg
  have hK : H.matrix.inverse = A.inverse.widen := by rw [hA, Matrix3.widen_inverse hdet]
  intro i p hp
  obtain ⟨x, rfl⟩ := (hpoints p (List.mem_of_getElem? hp)).exists_eq_widen
  let q := row .above (A.widen.project? Matrix3.infinityTolerance x.widen)
  have hq : (H.rows .above points)[i]? = some q := by
    rw [getElem?_rows, hp, hA, Option.map_some]
  refine ⟨q, row .above (A.inverse.widen.project? Matrix3.infinityTolerance q), hq, ?_, ?_⟩
  · rw [getElem?_rows, hq, hK, Option.map_some]
  intro hfinite
  obtain ⟨y, hy, hrow⟩ := exists_project?_of_isFinite hfinite
  have hback : A.inverse.widen.project? Matrix3.infinityTolerance y.widen = _ :=
    A.inverse.widen_project? Matrix3.tolerance_nonneg y
  have hbound : Scalar.abs (H.matrix.apply x.widen).w * Matrix3.infinityTolerance *
      H.matrix.inverse.norm < 1 ↔
        |(A.apply x).w| * Matrix3.infinityTolerance * A.inverse.norm < 1 := by
    rw [hK, hA, Matrix3.widen_norm]
    exact Iff.rfl
  rw [Matrix3.inverse_project? hdet Matrix3.tolerance_nonneg hy] at hback
  rw [hbound, show q = y.widen from hrow, hback]
  split
  · rename_i hroom
    exact ⟨Or.inl rfl, iff_of_true rfl hroom⟩
  · rename_i hroom
    refine ⟨Or.inr rfl, iff_of_false (fun hsame => ?_) hroom⟩
    cases congrArg Point.x hsame

/-- The inverse of a homography that counts as non-singular exists, takes images of finite points
back wherever it does not map them to infinity, and has the homography itself as its inverse. -/
theorem inverse_undoes (h : H.matrix.isNonSingular Matrix3.rankTolerance = true)
    {points : List (Point Wide)} (hpoints : ∀ p ∈ points, p.IsFinite) :
    ∃ K, H.inverse = .ok K ∧ K.matrix = H.matrix.inverse ∧ K.TakesBack H points ∧
      K.inverse = .ok H := by
  have hregular := Matrix3.isNonSingular_inverse Matrix3.tolerance_nonneg h
  have hback := Matrix3.inverse_inverse_of_isNonSingular Matrix3.tolerance_nonneg h
  refine ⟨⟨H.matrix.inverse⟩, inverse_eq_ok h, rfl, takesBack_inverse h hpoints, ?_⟩
  exact (inverse_eq_ok (H := ⟨H.matrix.inverse⟩) hregular).trans
    (congrArg (fun A => Except.ok (Homography.mk A)) hback)

end Regular

/-- A point off the line that a transform maps to infinity. -/
theorem project?_perspective : Matrix3.perspective.project? Matrix3.infinityTolerance ⟨-2, 3⟩ =
    some ⟨2, -3⟩ := by
  refine Matrix3.project?_eq_some_iff.mpr ⟨?_, ?_⟩
  · rw [Matrix3.norm_perspective.1, Matrix3.infinityTolerance, Exact.decimal_eq]
    norm_num [Matrix3.perspective, Matrix3.apply, Matrix3.act]
  · norm_num [Matrix3.perspective, Matrix3.apply, Matrix3.act, Homogeneous.dehomogenize]

/-- A transform with a line that it maps to infinity takes back the points off that line: of two
points, the one off the line has a finite image and comes back from it. -/
theorem inverse_undoes_perspective :
    letI : Spectral Wide := Spectral.chosen.widen
    let H : Homography Wide := ⟨Matrix3.perspective.widen⟩
    let points : List (Point Wide) := [⟨real (-1), real 3⟩, ⟨real (-2), real 3⟩]
    H.matrix.isNonSingular Matrix3.rankTolerance = true ∧ (∀ p ∈ points, p.IsFinite) ∧
      ∃ K, H.inverse = .ok K ∧ K.matrix = H.matrix.inverse ∧ K.TakesBack H points ∧
        K.inverse = .ok H ∧
        (H.rows .above points)[1]? = some ⟨real 2, real (-3)⟩ ∧
        (K.rows .above (H.rows .above points))[1]? = some ⟨real (-2), real 3⟩ := by
  intro H points
  let spectral : Spectral Wide := Spectral.chosen.widen
  have hexact : Spectral.WideExact := Spectral.widen_exact Spectral.chosen_exact
  have hregular : H.matrix.isNonSingular Matrix3.rankTolerance = true :=
    (Matrix3.isNonSingular_widen_iff Matrix3.perspective).mpr Matrix3.regular_perspective
  have hfinite : ∀ p ∈ points, p.IsFinite := by
    simp only [points, List.forall_mem_cons, List.not_mem_nil, false_imp_iff, implies_true,
      and_true]
    exact ⟨⟨rfl, rfl⟩, rfl, rfl⟩
  obtain ⟨K, hK, hmatrix, hback, hagain⟩ := inverse_undoes hregular hfinite
  have himage : (H.rows .above points)[1]? = some ⟨real 2, real (-3)⟩ := by
    have hproject := Matrix3.perspective.widen_project? Matrix3.tolerance_nonneg ⟨-2, 3⟩
    rw [show Scalar.decimal 1 12 = (Matrix3.infinityTolerance : ℝ) from rfl,
      project?_perspective] at hproject
    rw [getElem?_rows]
    exact congrArg (fun image => some (row .above image)) hproject
  have hnorm : K.matrix.norm = real 2 := by
    have hdet := Matrix3.regular_perspective.det_ne_zero Matrix3.tolerance_nonneg
    rw [hmatrix, Matrix3.widen_inverse hdet, Matrix3.widen_norm, Matrix3.norm_perspective.2]
  have hroom : Scalar.abs (H.matrix.apply ⟨real (-2), real 3⟩).w * Matrix3.infinityTolerance *
      K.matrix.norm < 1 := by
    have hlast : |(Matrix3.perspective.apply ⟨-2, 3⟩).w| * Matrix3.infinityTolerance * 2 < 1 := by
      rw [Matrix3.infinityTolerance, Exact.decimal_eq]
      norm_num [Matrix3.perspective, Matrix3.apply, Matrix3.act]
    rw [hnorm]
    exact hlast
  obtain ⟨q, r, hq, hr, hrow⟩ := hback 1 ⟨real (-2), real 3⟩ rfl
  obtain rfl := Option.some.inj (himage.symm.trans hq)
  rw [(hrow ⟨rfl, rfl⟩).2.mpr hroom] at hr
  exact ⟨hregular, hfinite, K, hK, hmatrix, hback, hagain, himage, hr⟩

end Homography

end Projectivity
