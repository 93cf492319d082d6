import Mathlib.Tactic.LinearCombination
import Projectivity.Point
import Projectivity.Proofs.Exact.Scalar

/-!
# Points on lines

Lines of the plane, points that are on one line, and points in general position, no three
of which are.  If no four points of a list are in general position, then the points
outside of some line are all the same.
-/

set_option autoImplicit false

namespace Projectivity

/-- A line of the plane: the points at which an affine function that is not constant is zero. -/
structure Line where
  a : ℝ
  b : ℝ
  c : ℝ
  proper : a ≠ 0 ∨ b ≠ 0

namespace Line

/-- The value of the function of a line at a point. -/
def value (l : Line) (p : Point ℝ) : ℝ := l.a * p.x + l.b * p.y + l.c

/-- Whether a point is on a line. -/
def Contains (l : Line) (p : Point ℝ) : Prop := l.value p = 0

end Line

namespace Point

/-- Twice the area of a triangle, with a sign for its orientation. -/
def area (p q r : Point ℝ) : ℝ := (q.x - p.x) * (r.y - p.y) - (r.x - p.x) * (q.y - p.y)

/-- Three points are collinear if they span no triangle. -/
def Collinear (p q r : Point ℝ) : Prop := area p q r = 0

variable {p q r s : Point ℝ}

/-- The area of a triangle does not change if its corners are rotated. -/
theorem area_rotate (p q r : Point ℝ) : area q r p = area p q r := by
  unfold area
  ring

/-- The area of a triangle changes its sign if two corners are exchanged. -/
theorem area_swap (p q r : Point ℝ) : area q p r = -area p q r := by
  unfold area
  ring

/-- Collinear points can be rotated. -/
theorem Collinear.rotate (h : Collinear p q r) : Collinear q r p := (area_rotate p q r).trans h

/-- Two of three collinear points can be exchanged. -/
theorem Collinear.swap (h : Collinear p q r) : Collinear q p r := by
  unfold Collinear at h ⊢
  rw [area_swap, h, neg_zero]

/-- A point that is taken twice is collinear with any other one. -/
theorem collinear_left (p q : Point ℝ) : Collinear p q p := by
  unfold Collinear area
  ring

/-- Two points are collinear with the second of them. -/
theorem collinear_right (p q : Point ℝ) : Collinear p q q := by
  unfold Collinear area
  ring

/-- Points that are not collinear with a third one are different. -/
theorem ne_of_not_collinear (h : ¬ Collinear p q r) : p ≠ q := by
  rintro rfl
  exact h (collinear_right r p).rotate

/-- Different points differ in a coordinate. -/
theorem sub_ne_zero_of_ne (h : p ≠ q) : q.x - p.x ≠ 0 ∨ q.y - p.y ≠ 0 := by
  by_contra hsame
  rw [not_or, not_not, not_not, sub_eq_zero, sub_eq_zero] at hsame
  obtain ⟨x, y⟩ := p
  obtain ⟨u, v⟩ := q
  obtain ⟨hx, hy⟩ := hsame
  exact h (by rw [show u = x from hx, show v = y from hy])

/-- Points on the line through two points are collinear with the first of the two. -/
theorem Collinear.trans (hne : p ≠ q) (hr : Collinear p q r) (hs : Collinear p q s) :
    Collinear p r s := by
  unfold Collinear area at *
  rcases sub_ne_zero_of_ne hne with h | h
  · refine (mul_eq_zero.mp ?_).resolve_left h
    linear_combination (r.x - p.x) * hs - (s.x - p.x) * hr
  · refine (mul_eq_zero.mp ?_).resolve_left h
    linear_combination (r.y - p.y) * hs - (s.y - p.y) * hr

/-- Three points of a line are collinear. -/
theorem collinear_of_line {l : Line} (hp : l.Contains p) (hq : l.Contains q) (hr : l.Contains r) :
    Collinear p q r := by
  unfold Line.Contains Line.value at hp hq hr
  unfold Collinear area
  rcases l.proper with h | h
  · refine (mul_eq_zero.mp ?_).resolve_left h
    linear_combination (r.y - p.y) * (hq - hp) - (q.y - p.y) * (hr - hp)
  · refine (mul_eq_zero.mp ?_).resolve_left h
    linear_combination (q.x - p.x) * (hr - hp) - (r.x - p.x) * (hq - hp)

/-- Four points are in general position if no three of them are collinear. -/
structure GeneralPosition (p q r s : Point ℝ) : Prop where
  first : ¬ Collinear p q r
  second : ¬ Collinear p q s
  third : ¬ Collinear p r s
  fourth : ¬ Collinear q r s

end Point

namespace Line

variable {p q r : Point ℝ} {points : List (Point ℝ)}

/-- A line does not contain all points. -/
theorem exists_not_contains (l : Line) : ∃ p, ¬ l.Contains p := by
  by_contra hall
  push Not at hall
  have horigin := hall ⟨0, 0⟩
  have hx := hall ⟨1, 0⟩
  have hy := hall ⟨0, 1⟩
  unfold Contains value at horigin hx hy
  rcases l.proper with h | h
  · exact h (by linarith)
  · exact h (by linarith)

/-- The line through two points. -/
def through (p q : Point ℝ) (h : p ≠ q) : Line where
  a := p.y - q.y
  b := q.x - p.x
  c := p.x * q.y - q.x * p.y
  proper := by
    rcases Point.sub_ne_zero_of_ne h with hx | hy
    · exact Or.inr hx
    · exact Or.inl fun hzero => hy (by linarith)

/-- The line through two points contains the points that are collinear with them. -/
theorem through_contains_iff (h : p ≠ q) : (through p q h).Contains r ↔ Point.Collinear p q r := by
  have hvalue : (through p q h).value r = Point.area p q r := by
    unfold through value Point.area
    ring
  unfold Contains Point.Collinear
  rw [hvalue]

/-- The vertical line through a point. -/
def vertical (p : Point ℝ) : Line := ⟨1, 0, -p.x, Or.inl one_ne_zero⟩

/-- A vertical line contains the point that it is drawn through. -/
theorem vertical_contains (p : Point ℝ) : (vertical p).Contains p := by
  unfold vertical Contains value
  ring

/-- The line through two points contains the first. -/
theorem through_contains_left (h : p ≠ q) : (through p q h).Contains p :=
  (through_contains_iff h).mpr (Point.collinear_left p q)

/-- The line through two points contains the second. -/
theorem through_contains_right (h : p ≠ q) : (through p q h).Contains q :=
  (through_contains_iff h).mpr (Point.collinear_right p q)

/-- Collinear points are on a line. -/
theorem exists_of_collinear (h : Point.Collinear p q r) :
    ∃ l : Line, l.Contains p ∧ l.Contains q ∧ l.Contains r := by
  by_cases hpq : p = q
  · by_cases hpr : p = r
    · exact ⟨vertical p, vertical_contains p, hpq ▸ vertical_contains p, hpr ▸ vertical_contains p⟩
    · have hleft := through_contains_left hpr
      exact ⟨through p r hpr, hleft, hpq ▸ hleft, through_contains_right hpr⟩
  · exact ⟨through p q hpq, through_contains_left hpq, through_contains_right hpq,
      (through_contains_iff hpq).mpr h⟩

end Line

section FourPoints

open Point (GeneralPosition collinear_left collinear_right ne_of_not_collinear)

variable {a b c d e : Point ℝ} {points : List (Point ℝ)}

/-- Some four points of a list are in general position. -/
def HasFrame (points : List (Point ℝ)) : Prop :=
  ∃ p ∈ points, ∃ q ∈ points, ∃ r ∈ points, ∃ s ∈ points, GeneralPosition p q r s

/-- Where a triangle has a further point on one of its sides and another one on the next side, but
not on the first, the two points are in general position with the ends of these two sides. -/
theorem generalPosition_of_two_sides (habc : ¬ Point.Collinear a b c)
    (habd : Point.Collinear a b d) (hda : d ≠ a) (hdb : d ≠ b) (hbce : Point.Collinear b c e)
    (hec : e ≠ c) (habe : ¬ Point.Collinear a b e) : GeneralPosition a d c e := by
  have hadb : Point.Collinear a d b := habd.rotate.rotate.swap
  have hceb : Point.Collinear c e b := hbce.rotate
  refine ⟨fun h => habc ?_, fun h => habe ?_, fun h => habc ?_, fun h => habc ?_⟩
  · exact hadb.trans hda.symm h
  · exact hadb.trans hda.symm h
  · exact (hceb.trans hec.symm h.rotate).rotate.swap
  · -- Both points would be on both sides.
    have hcbd : Point.Collinear c b d := hceb.trans hec.symm h.rotate
    have hbdc : Point.Collinear b d c := hcbd.rotate
    exact (hbdc.trans hdb.symm habd.rotate).rotate.rotate

/-- If a side of a triangle has a further point and no four points are in general position, then
every point is on that side or the opposite corner. -/
theorem mem_side_or_eq (hnone : ¬ HasFrame points) (ha : a ∈ points) (hb : b ∈ points)
    (hc : c ∈ points) (habc : ¬ Point.Collinear a b c) (hd : d ∈ points)
    (habd : Point.Collinear a b d) (hda : d ≠ a) (hdb : d ≠ b) (he : e ∈ points) :
    Point.Collinear a b e ∨ e = c := by
  by_contra hother
  rw [not_or] at hother
  obtain ⟨habe, hec⟩ := hother
  have hsides : Point.Collinear b c e ∨ Point.Collinear a c e := by
    by_contra hsides
    rw [not_or] at hsides
    exact hnone ⟨a, ha, b, hb, c, hc, e, he, habc, habe, hsides.2, hsides.1⟩
  rcases hsides with hbce | hace
  · exact hnone ⟨a, ha, d, hd, c, hc, e, he,
      generalPosition_of_two_sides habc habd hda hdb hbce hec habe⟩
  · exact hnone ⟨b, hb, d, hd, c, hc, e, he, generalPosition_of_two_sides (fun h => habc h.swap)
      habd.swap hdb hda hace hec fun h => habe h.swap⟩

/-- Points any three of which are collinear are on a line. -/
theorem exists_line_of_flat
    (hflat : ∀ p ∈ points, ∀ q ∈ points, ∀ r ∈ points, Point.Collinear p q r) :
    ∃ l : Line, ∀ q ∈ points, l.Contains q := by
  by_cases hsame : ∃ p ∈ points, ∃ q ∈ points, p ≠ q
  · obtain ⟨p, hp, q, hq, hne⟩ := hsame
    refine ⟨Line.through p q hne, fun r hr => ?_⟩
    exact (Line.through_contains_iff hne).mpr (hflat p hp q hq r hr)
  · cases points with
    | nil => exact ⟨Line.vertical ⟨0, 0⟩, fun q hq => absurd hq List.not_mem_nil⟩
    | cons p rest =>
      refine ⟨Line.vertical p, fun q hq => ?_⟩
      by_cases hpq : p = q
      · exact hpq ▸ Line.vertical_contains p
      · exact absurd ⟨p, List.mem_cons_self, q, hq, hpq⟩ hsame

/-- If there is a triangle and no four points are in general position, then all points but those at
one corner are on the opposite side. -/
theorem exists_line_of_triangle (hnone : ¬ HasFrame points) (ha : a ∈ points) (hb : b ∈ points)
    (hc : c ∈ points) (habc : ¬ Point.Collinear a b c) :
    ∃ (l : Line) (p : Point ℝ), ∀ q ∈ points, l.Contains q ∨ q = p := by
  -- A side that has a further point is the line, and without one any side is.
  have hside : ∀ {a b c : Point ℝ}, a ∈ points → b ∈ points → c ∈ points →
      ¬ Point.Collinear a b c → (∃ d ∈ points, Point.Collinear a b d ∧ d ≠ a ∧ d ≠ b) →
        ∃ (l : Line) (p : Point ℝ), ∀ q ∈ points, l.Contains q ∨ q = p := by
    rintro a b c ha hb hc habc ⟨d, hd, habd, hda, hdb⟩
    refine ⟨Line.through a b (ne_of_not_collinear habc), c, fun e he => ?_⟩
    rw [Line.through_contains_iff]
    exact mem_side_or_eq hnone ha hb hc habc hd habd hda hdb he
  by_cases hab : ∃ d ∈ points, Point.Collinear a b d ∧ d ≠ a ∧ d ≠ b
  · exact hside ha hb hc habc hab
  by_cases hbc : ∃ d ∈ points, Point.Collinear b c d ∧ d ≠ b ∧ d ≠ c
  · exact hside hb hc ha (fun h => habc h.rotate.rotate) hbc
  by_cases hca : ∃ d ∈ points, Point.Collinear c a d ∧ d ≠ c ∧ d ≠ a
  · exact hside hc ha hb (fun h => habc h.rotate) hca
  refine ⟨Line.through a b (ne_of_not_collinear habc), c, fun e he => ?_⟩
  by_contra hother
  rw [not_or, Line.through_contains_iff] at hother
  obtain ⟨habe, hec⟩ := hother
  have hea : e ≠ a := by
    rintro rfl
    exact habe (collinear_left _ _)
  have heb : e ≠ b := by
    rintro rfl
    exact habe (collinear_right _ _)
  exact hnone ⟨a, ha, b, hb, c, hc, e, he, habc, habe,
    fun h => hca ⟨e, he, h.swap, hec, hea⟩, fun h => hbc ⟨e, he, h, heb, hec⟩⟩

/-- If no four points of a list are in general position, then the points outside of some line are
all the same. -/
theorem exists_line_of_not_hasFrame (hnone : ¬ HasFrame points) :
    ∃ (l : Line) (p : Point ℝ), ∀ q ∈ points, l.Contains q ∨ q = p := by
  by_cases hflat : ∀ p ∈ points, ∀ q ∈ points, ∀ r ∈ points, Point.Collinear p q r
  · obtain ⟨l, hl⟩ := exists_line_of_flat hflat
    exact ⟨l, ⟨0, 0⟩, fun q hq => Or.inl (hl q hq)⟩
  · push Not at hflat
    obtain ⟨a, ha, b, hb, c, hc, habc⟩ := hflat
    exact exists_line_of_triangle hnone ha hb hc habc

/-- All points of a list but at most one are on a line. -/
def AlmostCollinear (points : List (Point ℝ)) : Prop :=
  ∃ (l : Line) (k : ℕ), ∀ p ∈ points.eraseIdx k, l.Contains p

/-- All of four points but one are on a line unless they are in general position. -/
theorem almostCollinear_iff : AlmostCollinear [a, b, c, d] ↔ ¬ GeneralPosition a b c d := by
  constructor
  · rintro ⟨l, k, hline⟩ hpos
    match k with
    | 0 =>
      simp only [List.eraseIdx_cons_zero, List.forall_mem_cons] at hline
      exact hpos.fourth (Point.collinear_of_line hline.1 hline.2.1 hline.2.2.1)
    | 1 =>
      simp only [List.eraseIdx_cons_succ, List.eraseIdx_cons_zero, List.forall_mem_cons] at hline
      exact hpos.third (Point.collinear_of_line hline.1 hline.2.1 hline.2.2.1)
    | 2 =>
      simp only [List.eraseIdx_cons_succ, List.eraseIdx_cons_zero, List.forall_mem_cons] at hline
      exact hpos.second (Point.collinear_of_line hline.1 hline.2.1 hline.2.2.1)
    | k + 3 =>
      simp only [List.eraseIdx_cons_succ, List.forall_mem_cons] at hline
      exact hpos.first (Point.collinear_of_line hline.1 hline.2.1 hline.2.2.1)
  · have hline : ∀ {p q r : Point ℝ} (k : ℕ), [a, b, c, d].eraseIdx k = [p, q, r] →
        Point.Collinear p q r → AlmostCollinear [a, b, c, d] := by
      intro p q r k herase hcollinear
      obtain ⟨l, hp, hq, hr⟩ := Line.exists_of_collinear hcollinear
      refine ⟨l, k, ?_⟩
      rw [herase]
      simp only [List.forall_mem_cons]
      exact ⟨hp, hq, hr, fun s hs => absurd hs List.not_mem_nil⟩
    intro hflat
    by_contra hspread
    exact hflat ⟨fun h => hspread (hline 3 rfl h), fun h => hspread (hline 2 rfl h),
      fun h => hspread (hline 1 rfl h), fun h => hspread (hline 0 rfl h)⟩

end FourPoints

end Projectivity
