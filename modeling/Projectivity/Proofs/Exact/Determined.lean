import Projectivity.Proofs.Exact.FourPoints
import Projectivity.Proofs.Exact.Recovery

/-!
# Transforms determined by correspondences

Correspondences without errors determine their transform exactly if four of the sources
are in general position.  With such four, the linear system has a kernel of one
dimension.  Without them all sources but one are on a line, and a transform that
collapses the plane carries the correspondences as well.
-/

set_option autoImplicit false

namespace Projectivity

namespace Normalization

/-- Points that are not coincident: their mean distance from the centroid is not small. -/
def Spread (points : List (Point ℝ)) : Prop :=
  coincidenceBound ≤ meanDistance points (Point.centroid points)

/-- Points are normalized exactly if they are spread. -/
theorem transform?_eq_some_iff {points : List (Point ℝ)} {T : Matrix3 ℝ} :
    transform? points = some T ↔ Spread points ∧
      T = similarity (Real.sqrt ((2 : ℕ) : ℝ) / meanDistance points (Point.centroid points))
        (Point.centroid points) := by
  unfold transform? Spread
  simp only [Exact.isFinite_eq, Bool.true_and, Bool.not_eq_true', decide_eq_false_iff_not,
    not_lt, Option.ite_none_right_eq_some, Option.some.injEq, Exact.sqrt_eq, @eq_comm _ T]

/-- Points have a normalizing transform exactly if they are not coincident. -/
theorem exists_transform_iff {points : List (Point ℝ)} :
    (∃ T, transform? points = some T) ↔ Spread points := by
  simp only [transform?_eq_some_iff, exists_and_left, exists_eq, and_true]

end Normalization

open Normalization (Spread)

namespace Linear

section Collapse

variable {l : Line} {q : Point ℝ} {c : Correspondence ℝ}

/-- The singular transform that maps all points outside a line to one point. -/
def collapse (l : Line) (q : Point ℝ) : Matrix3 ℝ :=
  ⟨q.x * l.a, q.x * l.b, q.x * l.c, q.y * l.a, q.y * l.b, q.y * l.c, l.a, l.b, l.c⟩

/-- A collapse is singular. -/
theorem det_collapse : (collapse l q).det = 0 := by
  simp only [collapse, Matrix3.det]
  ring

/-- A collapse maps all points to one, up to a factor that is zero on its line. -/
theorem collapse_apply (p : Point ℝ) : (collapse l q).apply p = q.lift.scale (l.value p) := by
  simp only [collapse, Matrix3.apply, Matrix3.act, Homogeneous.scale, Point.lift, Line.value,
    Homogeneous.mk.injEq]
  refine ⟨?_, ?_, ?_⟩ <;> ring

/-- A collapse carries what is on its line and what has its image as destination. -/
theorem collapse_carries (h : l.Contains c.source ∨ c.destination = q) :
    (collapse l q).Carries c := by
  refine Matrix3.carries_of_apply_eq (k := l.value c.source) ?_
  rw [collapse_apply]
  rcases h with hline | rfl
  · unfold Line.Contains at hline
    simp only [hline, Homogeneous.scale, zero_mul]
  · rfl

end Collapse

section Estimate

variable {sample : List (Correspondence ℝ)} {X : Matrix3 ℝ}
variable [Spectral ℝ] [Spectral.Exact]

section General

/-- A system whose solutions are the multiples of one transform has a solution. -/
theorem exists_solution {rows : List (List ℝ)} (hwidth : ∀ r ∈ rows, r.length = 9)
    (henough : 8 ≤ rows.length)
    (hunique : ∀ Y, (∀ r ∈ rows, ∑ j : Fin 9, r.getD j 0 * unknowns Y j = 0) →
      ∃ k : ℝ, Y = X.scale k) : ∃ G, solution? 0 rows = some G := by
  obtain ⟨d, G, -, hsolution⟩ := exists_solution?_eq hwidth henough
  refine ⟨G, ?_⟩
  rw [hsolution, zero_mul, if_neg]
  intro hseven
  -- Otherwise the last two singular vectors would be multiples of one vector.
  have hmultiple : ∀ i, d.values i = 0 → ∃ k : ℝ, (fun j => d.vectors j i) =
      fun j => k * unknowns X j := by
    intro i hi
    obtain ⟨Y, hY⟩ := exists_unknowns_eq fun j => d.vectors j i
    obtain ⟨k, rfl⟩ := hunique Y
      (hY ▸ matrixOf_mulVec_eq_zero_iff.mp (d.mulVec_vector_eq_zero hi))
    exact ⟨k, by rw [← hY, unknowns_scale]⟩
  obtain ⟨k, hk⟩ := hmultiple 7 (le_antisymm hseven (d.nonneg 7))
  obtain ⟨l, hl⟩ := hmultiple 8
    (le_antisymm ((d.descending (by decide)).trans hseven) (d.nonneg 8))
  exact d.not_multiples (by decide) hk hl

/-- A sample that determines a transform has a candidate. -/
theorem exists_candidate (henough : minItems ≤ sample.length)
    (hsource : Spread (Correspondence.sources sample))
    (hdestination : Spread (Correspondence.destinations sample))
    (hunique : ∀ Y : Matrix3 ℝ, (∀ c ∈ sample, Y.Carries c) → ∃ k : ℝ, Y = X.scale k) :
    ∃ K, candidate? 0 sample = some K := by
  obtain ⟨S, hS⟩ := Normalization.exists_transform_iff.mpr hsource
  obtain ⟨D, hD⟩ := Normalization.exists_transform_iff.mpr hdestination
  obtain ⟨hSdet, -⟩ := normalization_cases hS
  obtain ⟨hDdet, -⟩ := normalization_cases hD
  have hrows : 8 ≤ (system S D sample).length := by
    unfold minItems at henough
    rw [length_system]
    omega
  have hsystem : ∀ Y, (∀ r ∈ system S D sample, ∑ j : Fin 9, r.getD j 0 * unknowns Y j = 0) →
      ∃ k : ℝ, Y = ((D.mul X).mul S.inverse).scale k := by
    intro Y hY
    rw [← Matrix3.change_there hSdet hDdet (C := Y), solves_system_iff hS hD] at hY
    obtain ⟨k, hk⟩ := hunique _ hY
    refine ⟨k, ?_⟩
    rw [← Matrix3.change_there hSdet hDdet (C := Y), hk, Matrix3.mul_scale, Matrix3.scale_mul]
  obtain ⟨G, hG⟩ := exists_solution length_of_mem_system hrows hsystem
  exact ⟨_, candidate?_eq_some_iff.mpr ⟨S, D, G, ⟨henough, hS, hD, hG⟩, rfl⟩⟩

/-- Correspondences under a non-singular transform have an estimate if four of their sources are in
general position. -/
theorem exists_estimate (hdet : X.det ≠ 0) (henough : minItems ≤ sample.length)
    (hX : ∀ c ∈ sample, X.Carries c) (hsource : Spread (Correspondence.sources sample))
    (hdestination : Spread (Correspondence.destinations sample))
    (hframe : HasFrame (Correspondence.sources sample)) :
    ∃ K, estimateWithin? 0 0 sample = some K := by
  obtain ⟨p, hp, q, hq, r, hr, s, hs, hpos⟩ := hframe
  obtain ⟨a, ha, rfl⟩ := List.mem_map.mp hp
  obtain ⟨b, hb, rfl⟩ := List.mem_map.mp hq
  obtain ⟨c, hc, rfl⟩ := List.mem_map.mp hr
  obtain ⟨d, hd, rfl⟩ := List.mem_map.mp hs
  have hfour : ∀ e ∈ [a, b, c, d], e ∈ sample := by
    simp only [List.forall_mem_cons]
    exact ⟨ha, hb, hc, hd, fun e he => absurd he List.not_mem_nil⟩
  obtain ⟨K, hK⟩ := exists_candidate henough hsource hdestination fun Y hY =>
    Matrix3.exists_eq_scale_of_carries hpos hdet (fun e he => hX e (hfour e he))
      fun e he => hY e (hfour e he)
  obtain ⟨k, hk⟩ := eq_scale_of_carries le_rfl hK hX
  have hKdet : K.det ≠ 0 :=
    (Matrix3.proportional_of_eq_scale hdet hk).symm.det_ne_zero hdet
  have hregular := Matrix3.isNonSingular_iff_regular.mpr (Matrix3.regular_zero_iff.mpr hKdet)
  exact ⟨_, estimateWithin?_eq_some_iff.mpr ⟨K, hK, hregular, rfl⟩⟩

end General

section Collapsed

variable {tolerance regularity : ℝ} {l : Line} {q : Point ℝ}

/-- If every source outside a line has the same destination, there is no estimate, since the
estimate would have to be the transform that collapses the plane. -/
theorem estimateWithin?_eq_none (htolerance : 0 ≤ tolerance) (hregularity : 0 ≤ regularity)
    (h : ∀ c ∈ sample, l.Contains c.source ∨ c.destination = q) :
    estimateWithin? tolerance regularity sample = none := by
  rw [Option.eq_none_iff_forall_ne_some]
  intro H hH
  obtain ⟨K, hK, hregular, -⟩ := estimateWithin?_eq_some_iff.mp hH
  have hKdet := (Matrix3.isNonSingular_iff_regular.mp hregular).det_ne_zero hregularity
  obtain ⟨k, hk⟩ := eq_scale_of_carries htolerance hK fun c hc => collapse_carries (h c hc)
  have hzero : k = 0 := by
    have hdet := congrArg Matrix3.det hk
    rw [det_collapse, Matrix3.det_scale] at hdet
    exact pow_eq_zero_iff three_ne_zero |>.mp
      ((mul_eq_zero.mp hdet.symm).resolve_right hKdet)
  obtain ⟨p, hp⟩ := l.exists_not_contains
  apply hp
  have hw : ((collapse l q).apply p).w = ((K.scale 0).apply p).w := by rw [hk, hzero]
  rw [collapse_apply, Matrix3.apply, Matrix3.scale_act] at hw
  simpa [Homogeneous.scale, Point.lift, Line.Contains] using hw

/-- Correspondences under a transform have an estimate only if four of their sources are in general
position. -/
theorem hasFrame_of_estimate (htolerance : 0 ≤ tolerance) (hregularity : 0 ≤ regularity)
    (himage : ∀ c ∈ sample, X.project? 0 c.source = some c.destination)
    (h : estimateWithin? tolerance regularity sample ≠ none) :
    HasFrame (Correspondence.sources sample) := by
  by_contra hnone
  obtain ⟨l, p, hline⟩ := exists_line_of_not_hasFrame hnone
  apply h
  refine estimateWithin?_eq_none htolerance hregularity (l := l)
    (q := (X.apply p).dehomogenize) fun c hc => ?_
  rcases hline c.source (List.mem_map_of_mem hc) with hsource | hsource
  · exact Or.inl hsource
  · refine Or.inr ?_
    rw [(Matrix3.project?_eq_some_iff.mp (himage c hc)).2, hsource]

end Collapsed

variable {H : Matrix3 ℝ} {data : List (Correspondence ℝ)}

/-- The estimate from correspondences under a non-singular transform is that transform, of norm one
and with a last entry that is not negative.  With exact tests there is an estimate exactly if four
of the sources are in general position. -/
theorem estimate_recovers (hdet : H.det ≠ 0) (henough : minItems ≤ data.length)
    (himage : ∀ c ∈ data, H.project? 0 c.source = some c.destination) :
    (∀ tolerance K, 0 ≤ tolerance → estimate? tolerance data = some K →
      K.Represents H ∧ 0 ≤ K.m33) ∧
    (Spread (Correspondence.sources data) → Spread (Correspondence.destinations data) →
      ((∃ K, estimateWithin? 0 0 data = some K) ↔ HasFrame (Correspondence.sources data))) := by
  have hcarries : ∀ c ∈ data, H.Carries c := fun c hc =>
    Matrix3.carries_of_project le_rfl (himage c hc)
  constructor
  · intro tolerance K htolerance hK
    exact represents_of_estimate htolerance hK hdet hcarries
  · intro hsource hdestination
    constructor
    · rintro ⟨K, hK⟩
      exact hasFrame_of_estimate le_rfl le_rfl himage (Option.ne_none_iff_exists'.mpr ⟨K, hK⟩)
    · exact exists_estimate hdet henough hcarries hsource hdestination

end Estimate

/-- With the chosen decomposition and exact tests there is an estimate from the square, which is a
multiple of the identity. -/
theorem estimate_recovers_square :
    letI : Spectral ℝ := Spectral.chosen
    (∀ K, estimate? rankTolerance square = some K →
      K.Represents Matrix3.one ∧ 0 ≤ K.m33) ∧
      ∃ K, estimateWithin? 0 0 square = some K := by
  let spectral : Spectral ℝ := Spectral.chosen
  have hexact : Spectral.Exact := Spectral.chosen_exact
  have himage : ∀ c ∈ square,
      Matrix3.one.project? 0 c.source = some c.destination := fun c hc =>
    (Matrix3.project?_eq_some_iff_carries (by simp)).mpr
      (noiseless_square.matched c hc).carries
  have hspread := Normalization.exists_transform_iff.mp ⟨_, transform?_square⟩
  obtain ⟨hrecovers, hexists⟩ := estimate_recovers (by simp) (by decide) himage
  refine ⟨fun K => hrecovers rankTolerance K rankTolerance_nonneg, (hexists hspread hspread).mpr ?_⟩
  refine ⟨⟨1, 1⟩, ?_, ⟨-1, 1⟩, ?_, ⟨-1, -1⟩, ?_, ⟨1, -1⟩, ?_, ?_⟩
  · simp [Correspondence.sources, square]
  · simp [Correspondence.sources, square]
  · simp [Correspondence.sources, square]
  · simp [Correspondence.sources, square]
  · constructor <;> norm_num [Point.Collinear, Point.area]

end Linear

end Projectivity
