import Projectivity.Proofs.Exact.Collinear
import Projectivity.Proofs.Exact.Projection

/-!
# Transforms of four points

Four points in general position are a frame of the plane: a transform is determined up to
its factor by what it does with them, and any four points in general position are the
images of any others under a transform.
-/

set_option autoImplicit false

namespace Projectivity

open Point (area GeneralPosition)

/-- The homogeneous coordinates of a point are not all zero. -/
theorem Point.lift_ne_zero (p : Point ℝ) : p.lift ≠ ⟨0, 0, 0⟩ := by
  intro hzero
  have hone := congrArg Homogeneous.w hzero
  simp [Point.lift] at hone

namespace Matrix3

variable {A B F X Y Z : Matrix3 ℝ} {f g h : Homogeneous ℝ} {a b c d : Correspondence ℝ}

section Maps

/-- A transform maps homogeneous coordinates to a multiple of others. -/
def Maps (A : Matrix3 ℝ) (h g : Homogeneous ℝ) : Prop := ∃ k : ℝ, A.act h = g.scale k

/-- A correspondence is carried exactly if its homogeneous coordinates are mapped. -/
theorem carries_iff_maps : X.Carries c ↔ X.Maps c.source.lift c.destination.lift :=
  ⟨fun h => ⟨_, h⟩, fun ⟨_, h⟩ => carries_of_apply_eq h⟩

/-- A product maps as its factors one after the other. -/
theorem Maps.mul (hA : A.Maps g f) (hB : B.Maps h g) : (A.mul B).Maps h f := by
  obtain ⟨k, hk⟩ := hA
  obtain ⟨l, hl⟩ := hB
  refine ⟨l * k, ?_⟩
  rw [act_mul, hl, act_scale, hk]
  simp only [Homogeneous.scale, mul_assoc]

/-- The inverse takes images back. -/
theorem inverse_act_act (hdet : A.det ≠ 0) (h : Homogeneous ℝ) : A.inverse.act (A.act h) = h := by
  rw [← act_mul, inverse_mul hdet, one_act]

/-- A vector other than zero is not mapped to zero. -/
theorem factor_ne_zero {k : ℝ} (hdet : A.det ≠ 0) (hh : h ≠ ⟨0, 0, 0⟩) (hA : A.act h = g.scale k) :
    k ≠ 0 := by
  rintro rfl
  have hback := inverse_act_act hdet h
  rw [hA, act_scale] at hback
  apply hh
  rw [← hback]
  simp only [Homogeneous.scale, zero_mul]

/-- The inverse maps images back. -/
theorem Maps.inverse (hA : A.Maps h g) (hdet : A.det ≠ 0) (hh : h ≠ ⟨0, 0, 0⟩) :
    A.inverse.Maps g h := by
  obtain ⟨k, hk⟩ := hA
  have hne := factor_ne_zero hdet hh hk
  refine ⟨k⁻¹, ?_⟩
  have hback : h = (A.inverse.act g).scale k := by
    rw [← act_scale, ← hk, inverse_act_act hdet]
  rw [hback]
  simp only [Homogeneous.scale, inv_mul_cancel_left₀ hne]

/-- The image of a correspondence that is carried is not at infinity. -/
theorem Carries.weight_ne_zero (h : X.Carries c) (hdet : X.det ≠ 0) : (X.apply c.source).w ≠ 0 :=
  factor_ne_zero hdet c.source.lift_ne_zero h

/-- A non-singular transform carries a correspondence exactly if the image of the source is the
destination. -/
theorem project?_eq_some_iff_carries (hdet : X.det ≠ 0) :
    X.project? 0 c.source = some c.destination ↔ X.Carries c := by
  refine ⟨carries_of_project le_rfl, fun h => ?_⟩
  have hw := h.weight_ne_zero hdet
  rw [project?_eq_some_iff, zero_mul]
  refine ⟨abs_pos.mpr hw, ?_⟩
  obtain ⟨hx, hy⟩ := carries_iff.mp h
  obtain ⟨p, ⟨x, y⟩⟩ := c
  simp only at hw hx hy
  simp only [Homogeneous.dehomogenize, hx, hy, mul_div_cancel_left₀ _ hw]

end Maps

section Area

/-- Homogeneous coordinates as the columns of a matrix, whose determinant is the area of the
triangle of the points. -/
def columns (f g h : Homogeneous ℝ) : Matrix3 ℝ := ⟨f.x, g.x, h.x, f.y, g.y, h.y, f.w, g.w, h.w⟩

/-- A product with columns has their images as columns. -/
theorem mul_columns : A.mul (columns f g h) = columns (A.act f) (A.act g) (A.act h) := rfl

/-- Factors of the columns are factors of the determinant. -/
theorem det_columns_scale (i j k : ℝ) :
    (columns (f.scale i) (g.scale j) (h.scale k)).det = i * j * k * (columns f g h).det := by
  simp only [columns, Homogeneous.scale, det]
  ring

/-- The determinant of three points is the area of their triangle. -/
theorem det_columns_lift (p q r : Point ℝ) :
    (columns p.lift q.lift r.lift).det = area p q r := by
  simp only [columns, Point.lift, det, area]
  ring

/-- A non-singular transform keeps lines. -/
theorem collinear_iff_of_carries (hdet : X.det ≠ 0) (ha : X.Carries a) (hb : X.Carries b)
    (hc : X.Carries c) : Point.Collinear a.source b.source c.source ↔
      Point.Collinear a.destination b.destination c.destination := by
  obtain ⟨i, hi⟩ := carries_iff_maps.mp ha
  obtain ⟨j, hj⟩ := carries_iff_maps.mp hb
  obtain ⟨k, hk⟩ := carries_iff_maps.mp hc
  have hfactors : i * j * k ≠ 0 :=
    mul_ne_zero (mul_ne_zero (factor_ne_zero hdet a.source.lift_ne_zero hi)
      (factor_ne_zero hdet b.source.lift_ne_zero hj)) (factor_ne_zero hdet c.source.lift_ne_zero hk)
  -- The areas differ by the determinant and the three factors.
  have harea : X.det * area a.source b.source c.source =
      i * j * k * area a.destination b.destination c.destination := by
    rw [← det_columns_lift, ← det_columns_lift, ← det_mul, mul_columns, hi, hj, hk,
      det_columns_scale]
  unfold Point.Collinear
  constructor
  · intro hzero
    rw [hzero, mul_zero] at harea
    exact (mul_eq_zero.mp harea.symm).resolve_left hfactors
  · intro hzero
    rw [hzero, mul_zero] at harea
    exact (mul_eq_zero.mp harea).resolve_left hdet

/-- Points are in general position exactly if their images are. -/
theorem generalPosition_iff_of_carries (hdet : X.det ≠ 0)
    (hX : ∀ e ∈ [a, b, c, d], X.Carries e) :
    GeneralPosition a.source b.source c.source d.source ↔
      GeneralPosition a.destination b.destination c.destination d.destination := by
  simp only [List.forall_mem_cons] at hX
  obtain ⟨ha, hb, hc, hd, -⟩ := hX
  have habc := collinear_iff_of_carries hdet ha hb hc
  have habd := collinear_iff_of_carries hdet ha hb hd
  have hacd := collinear_iff_of_carries hdet ha hc hd
  have hbcd := collinear_iff_of_carries hdet hb hc hd
  constructor
  · intro h
    exact ⟨mt habc.mpr h.first, mt habd.mpr h.second, mt hacd.mpr h.third, mt hbcd.mpr h.fourth⟩
  · intro h
    exact ⟨mt habc.mp h.first, mt habd.mp h.second, mt hacd.mp h.third, mt hbcd.mp h.fourth⟩

end Area

section Frames

variable {p q r s : Point ℝ}

/-- A frame of four points maps the unit points of the homogeneous coordinates to three of them, and
the point with three equal coordinates to the fourth. -/
structure IsFrame (F : Matrix3 ℝ) (p q r s : Point ℝ) : Prop where
  regular : F.det ≠ 0
  first : F.Maps ⟨1, 0, 0⟩ p.lift
  second : F.Maps ⟨0, 1, 0⟩ q.lift
  third : F.Maps ⟨0, 0, 1⟩ r.lift
  unit : F.Maps ⟨1, 1, 1⟩ s.lift

/-- The frame of four points: the factors of the first three are such that their sum is a multiple
of the fourth. -/
def frame (p q r s : Point ℝ) : Matrix3 ℝ where
  m11 := area q r s * p.x
  m21 := area q r s * p.y
  m31 := area q r s
  m12 := -area p r s * q.x
  m22 := -area p r s * q.y
  m32 := -area p r s
  m13 := area p q s * r.x
  m23 := area p q s * r.y
  m33 := area p q s

/-- The determinant of a frame is the product of the areas of all triangles. -/
theorem det_frame : (frame p q r s).det = -(area q r s * area p r s * area p q s * area p q r) := by
  unfold frame det area
  ring

/-- The frame of points in general position is one. -/
theorem isFrame_frame (hpos : GeneralPosition p q r s) : (frame p q r s).IsFrame p q r s := by
  constructor
  · rw [det_frame]
    exact neg_ne_zero.mpr
      (mul_ne_zero (mul_ne_zero (mul_ne_zero hpos.fourth hpos.third) hpos.second) hpos.first)
  · refine ⟨area q r s, ?_⟩
    simp [frame, act, Homogeneous.scale, Point.lift]
  · refine ⟨-area p r s, ?_⟩
    simp [frame, act, Homogeneous.scale, Point.lift]
  · refine ⟨area p q s, ?_⟩
    simp [frame, act, Homogeneous.scale, Point.lift]
  · refine ⟨area p q r, ?_⟩
    simp only [frame, act, Homogeneous.scale, Point.lift, area, Homogeneous.mk.injEq]
    refine ⟨?_, ?_, ?_⟩ <;> ring

/-- The inverse of a frame maps its points to those of the standard frame. -/
theorem IsFrame.maps_standard (hF : F.IsFrame p q r s) :
    F.inverse.Maps p.lift ⟨1, 0, 0⟩ ∧ F.inverse.Maps q.lift ⟨0, 1, 0⟩ ∧
      F.inverse.Maps r.lift ⟨0, 0, 1⟩ ∧ F.inverse.Maps s.lift ⟨1, 1, 1⟩ := by
  refine ⟨hF.first.inverse hF.regular ?_, hF.second.inverse hF.regular ?_,
    hF.third.inverse hF.regular ?_, hF.unit.inverse hF.regular ?_⟩ <;> simp

/-- Only multiples of the identity fix the four points of the standard frame. -/
theorem eq_scale_one_of_maps (hfirst : Z.Maps ⟨1, 0, 0⟩ ⟨1, 0, 0⟩)
    (hsecond : Z.Maps ⟨0, 1, 0⟩ ⟨0, 1, 0⟩) (hthird : Z.Maps ⟨0, 0, 1⟩ ⟨0, 0, 1⟩)
    (hunit : Z.Maps ⟨1, 1, 1⟩ ⟨1, 1, 1⟩) : ∃ k : ℝ, Z = one.scale k := by
  obtain ⟨_, h1⟩ := hfirst
  obtain ⟨_, h2⟩ := hsecond
  obtain ⟨_, h3⟩ := hthird
  obtain ⟨k, hk⟩ := hunit
  simp only [act, Homogeneous.scale, Homogeneous.mk.injEq, mul_one, mul_zero, add_zero,
    zero_add] at h1 h2 h3 hk
  -- The columns are those of a diagonal matrix, and the row sums are its entries.
  obtain ⟨-, h21, h31⟩ := h1
  obtain ⟨h12, -, h32⟩ := h2
  obtain ⟨h13, h23, -⟩ := h3
  obtain ⟨hx, hy, hw⟩ := hk
  rw [h12, h13, add_zero, add_zero] at hx
  rw [h21, h23, zero_add, add_zero] at hy
  rw [h31, h32, zero_add, zero_add] at hw
  refine ⟨k, ?_⟩
  obtain ⟨m11, m12, m13, m21, m22, m23, m31, m32, m33⟩ := Z
  simp only at h12 h13 h21 h23 h31 h32 hx hy hw
  simp only [scale, map, one, mul_one, mul_zero, h12, h13, h21, h23, h31, h32, hx, hy, hw]

end Frames

section Transforms

/-- Four correspondences with sources in general position determine the transforms that carry
them up to a factor. -/
theorem exists_eq_scale_of_carries
    (hpos : GeneralPosition a.source b.source c.source d.source) (hdet : X.det ≠ 0)
    (hX : ∀ e ∈ [a, b, c, d], X.Carries e) (hY : ∀ e ∈ [a, b, c, d], Y.Carries e) :
    ∃ k : ℝ, Y = X.scale k := by
  have hF := isFrame_frame hpos
  generalize frame a.source b.source c.source d.source = F at hF
  have hsource := hF.maps_standard
  simp only [List.forall_mem_cons, carries_iff_maps] at hX hY
  obtain ⟨hXa, hXb, hXc, hXd, -⟩ := hX
  obtain ⟨hYa, hYb, hYc, hYd, -⟩ := hY
  -- The way there with `Y` and back with `X` fixes the standard frame.
  have hfix : ∀ {h : Homogeneous ℝ} {e : Correspondence ℝ}, F.Maps h e.source.lift →
      F.inverse.Maps e.source.lift h → X.Maps e.source.lift e.destination.lift →
      Y.Maps e.source.lift e.destination.lift →
        (F.inverse.mul (X.inverse.mul (Y.mul F))).Maps h h := by
    intro h e hthere hback hXe hYe
    exact hback.mul ((hXe.inverse hdet e.source.lift_ne_zero).mul (hYe.mul hthere))
  obtain ⟨k, hk⟩ := eq_scale_one_of_maps (hfix hF.first hsource.1 hXa hYa)
    (hfix hF.second hsource.2.1 hXb hYb) (hfix hF.third hsource.2.2.1 hXc hYc)
    (hfix hF.unit hsource.2.2.2 hXd hYd)
  refine ⟨k, ?_⟩
  calc Y = (X.mul (F.mul (F.inverse.mul (X.inverse.mul (Y.mul F))))).mul F.inverse := by
        rw [← Matrix3.mul_assoc F, mul_inverse hF.regular, Matrix3.one_mul, ← Matrix3.mul_assoc X,
          mul_inverse hdet, Matrix3.one_mul, Matrix3.mul_assoc, mul_inverse hF.regular,
          Matrix3.mul_one]
    _ = X.scale k := by
        rw [hk, mul_scale, Matrix3.mul_one, mul_scale, scale_mul, Matrix3.mul_assoc,
          mul_inverse hF.regular, Matrix3.mul_one]

/-- Four points in general position are mapped to any others by a non-singular transform. -/
theorem exists_carries (hsource : GeneralPosition a.source b.source c.source d.source)
    (hdestination : GeneralPosition a.destination b.destination c.destination d.destination) :
    ∃ X : Matrix3 ℝ, X.det ≠ 0 ∧ ∀ e ∈ [a, b, c, d], X.Carries e := by
  have hF := isFrame_frame hsource
  have hG := isFrame_frame hdestination
  generalize frame a.source b.source c.source d.source = F at hF
  generalize frame a.destination b.destination c.destination d.destination = G at hG
  obtain ⟨ha, hb, hc, hd⟩ := hF.maps_standard
  refine ⟨G.mul F.inverse, ?_, ?_⟩
  · rw [det_mul]
    exact mul_ne_zero hG.regular (det_inverse_ne_zero hF.regular)
  · simp only [List.forall_mem_cons, carries_iff_maps]
    exact ⟨hG.first.mul ha, hG.second.mul hb, hG.third.mul hc, hG.unit.mul hd,
      fun e he => absurd he List.not_mem_nil⟩

end Transforms

end Matrix3

end Projectivity
