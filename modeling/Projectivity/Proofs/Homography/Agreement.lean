import Projectivity.Homography.Basic
import Projectivity.Proofs.Scalar.Norm

/-!
# Points mapped alone and in a list

A point alone is refused if its last coordinate is at most a bound, and in a list it
becomes a row of infinities unless the last coordinate exceeds that bound.  Each of the
two is the negation of the other for a last coordinate that is a number, and neither
holds for an undefined one.
-/

set_option autoImplicit false

namespace Projectivity.Homography

/-- The row of coordinates that a point has in a list agrees with what the map answers for the
point alone: it is infinite exactly if the point is refused, and otherwise the answer. -/
structure Agrees (H : Homography Float) (p row : Point Float) : Prop where
  refused_iff : (∃ h, H.apply p = .error h) ↔ row = ⟨Double.infinity, Double.infinity⟩
  same : ∀ q, H.apply p = .ok q → q = row

variable {H : Homography Float} {p : Point Float}

/-- Where a point is refused, only an infinite row agrees. -/
theorem agrees_iff_of_error {q : Point Float} {h : Homogeneous Float} (hp : H.apply p = .error h) :
    H.Agrees p q ↔ q = ⟨Double.infinity, Double.infinity⟩ := by
  constructor
  · exact fun hagrees => hagrees.refused_iff.mp ⟨h, hp⟩
  · intro hq
    refine ⟨iff_of_true ⟨h, hp⟩ hq, fun r hr => ?_⟩
    rw [hp] at hr
    cases hr

/-- Where a point has an image, only this row agrees, unless it is infinite. -/
theorem agrees_iff_of_ok {q r : Point Float} (hp : H.apply p = .ok r) :
    H.Agrees p q ↔ r = q ∧ q ≠ ⟨Double.infinity, Double.infinity⟩ := by
  have haccepted : ¬ ∃ h, H.apply p = .error h := by
    rintro ⟨h, hh⟩
    rw [hp] at hh
    cases hh
  constructor
  · exact fun hagrees => ⟨hagrees.same r hp, hagrees.refused_iff.not.mp haccepted⟩
  · rintro ⟨rfl, hq⟩
    refine ⟨iff_of_false haccepted hq, fun s hs => ?_⟩
    rw [hp, Except.ok.injEq] at hs
    exact hs.symm

/-- The bound of a finite matrix is a number, also where its norm is beyond all doubles, and so
a number is either at most the bound or above it. -/
theorem bound_lt_iff (h : H.matrix.isFinite = true) {w : Float} (hw : w.isNaN = false) :
    Matrix3.infinityTolerance * H.matrix.norm < Scalar.abs w ↔
      ¬ Scalar.abs w ≤ Matrix3.infinityTolerance * H.matrix.norm := by
  refine Scalar.Ordered.lt_iff_not_le ?_ ?_
  · exact Scalar.Ordered.le_refl_right (Double.bound_nonneg h)
  · rwa [Double.le_refl_iff, Double.isNaN_abs]

/-- A point whose last coordinate is a number is refused exactly if it has no image in a list. -/
theorem apply_eq_project? (h : H.matrix.isFinite = true)
    (hw : (H.matrix.apply p).w.isNaN = false) : H.apply p =
      match H.matrix.project? Matrix3.infinityTolerance p with
      | some q => .ok q
      | none => .error (H.matrix.apply p) := by
  have hbound := bound_lt_iff h hw
  unfold apply Matrix3.project?
  by_cases hle : Scalar.abs (H.matrix.apply p).w ≤ Matrix3.infinityTolerance * H.matrix.norm
  · simp only [if_pos hle, if_neg (hbound.not.mpr (not_not.mpr hle))]
  · simp only [if_neg hle, if_pos (hbound.mpr hle)]

/-- A point whose last coordinate is undefined is not refused, and has no image in a list. -/
theorem apply_eq_ok_of_isNaN (hw : (H.matrix.apply p).w.isNaN = true) :
    H.apply p = .ok (H.matrix.apply p).dehomogenize ∧
      H.matrix.project? Matrix3.infinityTolerance p = none := by
  -- What is compared with anything can be compared with itself.
  have habs : ¬ Scalar.abs (H.matrix.apply p).w ≤ Scalar.abs (H.matrix.apply p).w := by
    rw [Double.le_refl_iff, Double.isNaN_abs, hw]
    exact Bool.true_eq_false_eq_False
  exact ⟨if_neg fun hle => habs (Scalar.Ordered.le_refl_left hle),
    if_neg fun hlt => habs (Double.le_refl_of_lt hlt)⟩

/-- A row agrees with the answer for the point alone exactly if the last coordinate of the image
is a number, and the other two do not both overflow when they are divided by it. -/
theorem agrees_row_iff (h : H.matrix.isFinite = true) :
    H.Agrees p (row Double.infinity (H.matrix.project? Matrix3.infinityTolerance p)) ↔
      (H.matrix.apply p).w.isNaN = false ∧
        H.apply p ≠ .ok ⟨Double.infinity, Double.infinity⟩ := by
  cases hw : (H.matrix.apply p).w.isNaN with
  | true =>
    obtain ⟨happly, hproject⟩ := apply_eq_ok_of_isNaN hw
    rw [hproject, agrees_iff_of_ok happly]
    exact iff_of_false (fun hrow => hrow.2 rfl) (fun hnumber => Bool.noConfusion hnumber.1)
  | false =>
    have happly := apply_eq_project? h hw
    cases hproject : H.matrix.project? Matrix3.infinityTolerance p with
    | none =>
      rw [hproject] at happly
      rw [agrees_iff_of_error happly, happly]
      exact iff_of_true rfl ⟨rfl, fun hok => by cases hok⟩
    | some q =>
      rw [hproject] at happly
      rw [agrees_iff_of_ok happly, happly]
      simp only [row, Option.getD_some, true_and, ne_eq, Except.ok.injEq]

/-- Maps of finite matrices answer for a point of a list as they do for it alone exactly if its
last coordinate is a number and its image does not overflow in both coordinates. -/
theorem rows_agree_iff (h : H.matrix.isFinite = true) {points : List (Point Float)} {i : Nat}
    (hp : points[i]? = some p) :
    (∃ q, (H.rows Double.infinity points)[i]? = some q ∧ H.Agrees p q) ↔
      (H.matrix.apply p).w.isNaN = false ∧
        H.apply p ≠ .ok ⟨Double.infinity, Double.infinity⟩ := by
  simp only [getElem?_rows, hp, Option.map_some, Option.some.injEq, exists_eq_left']
  exact agrees_row_iff h

/-- A map with a line that it takes to infinity, and a point whose last coordinate is large. -/
theorem rows_agree_iff_perspective :
    let H : Homography Float := ⟨⟨1, 0, 0, 0, 1, 0, 1e150, 1e150, 1⟩⟩
    let p : Point Float := ⟨1e100, 1e120⟩
    H.matrix.isFinite = true ∧ [p][0]? = some p ∧
      ((∃ q, (H.rows Double.infinity [p])[0]? = some q ∧ H.Agrees p q) ↔
        (H.matrix.apply p).w.isNaN = false ∧
          H.apply p ≠ .ok ⟨Double.infinity, Double.infinity⟩) := by
  intro H p
  have hfinite : H.matrix.isFinite = true := by decide +kernel
  exact ⟨hfinite, rfl, rows_agree_iff hfinite rfl⟩

/-- The identity leaves the last coordinate of a point at infinity undefined: the point alone is
not refused, although its row in a list is infinite. -/
theorem not_rows_agree_of_infinite_point :
    let H : Homography Float := identity
    let p : Point Float := ⟨Double.infinity, 0⟩
    H.matrix.isFinite = true ∧
      ¬ ∃ q, (H.rows Double.infinity [p])[0]? = some q ∧ H.Agrees p q := by
  intro H p
  have hundefined : (H.matrix.apply p).w.isNaN = true := by decide +kernel
  obtain ⟨happly, hproject⟩ := apply_eq_ok_of_isNaN hundefined
  refine ⟨by decide +kernel, ?_⟩
  rintro ⟨q, hq, hagrees⟩
  rw [getElem?_rows] at hq
  obtain rfl : row Double.infinity none = q := by simpa [hproject] using hq
  exact ((agrees_iff_of_ok happly).mp hagrees).2 rfl

end Projectivity.Homography
