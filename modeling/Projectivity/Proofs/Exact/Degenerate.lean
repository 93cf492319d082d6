import Projectivity.Homography.Basic
import Projectivity.Proofs.Exact.Determined

/-!
# Degenerate correspondences

Which correspondences are refused by an estimation.  Those whose sources are on a line
but for one are carried by a transform that collapses the plane.  A candidate from four
correspondences carries them, so that if it is not singular, the destinations are in
general position with the sources.  All other four correspondences have an estimate.
-/

set_option autoImplicit false

namespace Projectivity

open Point (GeneralPosition)
open Normalization (Spread)

namespace Linear

/-- A system of eight equations for nine unknowns has a solution that is not zero. -/
theorem exists_solves_of_length {rows : List (List ℝ)} (h : rows.length = 8) :
    ∃ X : Matrix3 ℝ, unknowns X ≠ 0 ∧
      ∀ r ∈ rows, ∑ j : Fin 9, r.getD j 0 * unknowns X j = 0 := by
  obtain ⟨x, hne, hx⟩ := exists_mulVec_eq_zero_of_wide (by omega) (matrixOf rows 9)
  obtain ⟨X, rfl⟩ := exists_unknowns_eq x
  exact ⟨X, hne, matrixOf_mulVec_eq_zero_iff.mp hx⟩

section Estimate

variable [Spectral ℝ] [Spectral.Exact]
variable {tolerance regularity : ℝ} {sample : List (Correspondence ℝ)}
variable {a b c d : Correspondence ℝ} {K : Matrix3 ℝ}

/-- Correspondences whose sources are on a line but for one have no estimate. -/
theorem estimateWithin?_of_almostCollinear (htolerance : 0 ≤ tolerance)
    (hregularity : 0 ≤ regularity) (h : AlmostCollinear (Correspondence.sources sample)) :
    estimateWithin? tolerance regularity sample = none := by
  obtain ⟨l, k, hline⟩ := h
  let q : Point ℝ := (sample[k]?.map Correspondence.destination).getD ⟨0, 0⟩
  refine estimateWithin?_eq_none htolerance hregularity (l := l) (q := q) fun c hc => ?_
  obtain ⟨i, hi⟩ := List.mem_iff_getElem?.mp hc
  by_cases hik : i = k
  · subst hik
    refine Or.inr ?_
    simp only [q, hi, Option.map_some, Option.getD_some]
  · refine Or.inl (hline c.source (List.mem_eraseIdx_iff_getElem?.mpr ⟨i, hik, ?_⟩))
    rw [Correspondence.sources, List.getElem?_map, hi, Option.map_some]

/-- A candidate from four correspondences carries them. -/
theorem carries_of_candidate (htolerance : 0 ≤ tolerance) (hfour : sample.length = 4)
    (h : candidate? tolerance sample = some K) : ∀ c ∈ sample, K.Carries c := by
  obtain ⟨S, D, _, hsolves, -⟩ := candidate?_eq_some_iff.mp h
  obtain ⟨hS, -⟩ := normalization_cases hsolves.source
  obtain ⟨hD, -⟩ := normalization_cases hsolves.destination
  have hrows : (system S D sample).length = 8 := by rw [length_system, hfour]
  obtain ⟨Y, hne, hY⟩ := exists_solves_of_length hrows
  rw [← Matrix3.change_there hS hD (C := Y), solves_system_iff hsolves.source hsolves.destination] at hY
  obtain ⟨k, hk⟩ := eq_scale_of_carries htolerance h hY
  have hzero : k ≠ 0 := by
    rintro rfl
    apply hne
    rw [← Matrix3.change_there hS hD (C := Y), hk, Matrix3.mul_scale, Matrix3.scale_mul, unknowns_scale]
    simp only [zero_mul]
    rfl
  intro c hc
  refine (hY c hc).of_proportional ⟨k⁻¹, inv_ne_zero hzero, ?_⟩
  rw [hk, Matrix3.scale_scale, inv_mul_cancel₀ hzero, Matrix3.one_scale]

/-- Four correspondences have no estimate if three of the destinations are collinear. -/
theorem estimateWithin?_of_collinear_destinations (htolerance : 0 ≤ tolerance)
    (hregularity : 0 ≤ regularity)
    (h : ¬ GeneralPosition a.destination b.destination c.destination d.destination) :
    estimateWithin? tolerance regularity [a, b, c, d] = none := by
  by_contra hsome
  obtain ⟨H, hH⟩ := Option.ne_none_iff_exists'.mp hsome
  obtain ⟨K, hK, hregular, -⟩ := estimateWithin?_eq_some_iff.mp hH
  have hdet := (Matrix3.isNonSingular_iff_regular.mp hregular).det_ne_zero hregularity
  have hcarries := carries_of_candidate htolerance rfl hK
  rw [← Matrix3.generalPosition_iff_of_carries hdet hcarries] at h
  refine hsome (estimateWithin?_of_almostCollinear htolerance hregularity ?_)
  exact almostCollinear_iff.mpr h

/-- Four correspondences with sources and destinations in general position have an estimate, which
maps the sources to the destinations. -/
theorem exists_estimate_of_generalPosition
    (hsource : GeneralPosition a.source b.source c.source d.source)
    (hdestination : GeneralPosition a.destination b.destination c.destination d.destination)
    (hsources : Spread (Correspondence.sources [a, b, c, d]))
    (hdestinations : Spread (Correspondence.destinations [a, b, c, d])) :
    ∃ K, estimateWithin? 0 0 [a, b, c, d] = some K ∧
      ∀ e ∈ [a, b, c, d], K.project? 0 e.source = some e.destination := by
  obtain ⟨X, hdet, hX⟩ := Matrix3.exists_carries hsource hdestination
  have hframe : HasFrame (Correspondence.sources [a, b, c, d]) := by
    refine ⟨a.source, ?_, b.source, ?_, c.source, ?_, d.source, ?_, hsource⟩ <;>
      simp [Correspondence.sources]
  obtain ⟨K, hK⟩ := exists_estimate hdet le_rfl hX hsources hdestinations hframe
  refine ⟨K, hK, fun e he => ?_⟩
  rw [(estimateWithin_proportional le_rfl le_rfl hK hdet hX).project?]
  exact (Matrix3.project?_eq_some_iff_carries hdet).mpr (hX e he)

end Estimate

end Linear

namespace Homography

section Decision

variable [Spectral ℝ]

/-- The estimation with a tolerance for each of its two tests. -/
noncomputable def estimateWithin (tolerance regularity : ℝ) (H : Homography ℝ)
    (data : List (Correspondence ℝ)) : Bool × Homography ℝ :=
  H.adopt ((Linear.estimateWithin? tolerance regularity data).map Homography.mk)

/-- The estimation is the one with the tolerances that the two tests have. -/
theorem estimate_eq (H : Homography ℝ) (data : List (Correspondence ℝ)) :
    H.estimate data = H.estimateWithin Linear.rankTolerance Matrix3.rankTolerance data := by
  unfold estimate estimate? estimateWithin
  rw [Linear.estimate?_eq]

variable [Spectral.Exact]

/-- An estimation is refused and leaves the homography as it is, for all tolerances, if the sources
are on a line but for one, or if there are four correspondences and three of the destinations are
collinear.  With exact tests it succeeds for all other four correspondences that are not coincident,
and maps the sources to the destinations. -/
theorem estimateWithin_decides (H : Homography ℝ) :
    (∀ tolerance regularity, 0 ≤ tolerance → 0 ≤ regularity → ∀ data,
      AlmostCollinear (Correspondence.sources data) →
        H.estimateWithin tolerance regularity data = (false, H)) ∧
    (∀ tolerance regularity, 0 ≤ tolerance → 0 ≤ regularity → ∀ a b c d : Correspondence ℝ,
      ¬ GeneralPosition a.destination b.destination c.destination d.destination →
        H.estimateWithin tolerance regularity [a, b, c, d] = (false, H)) ∧
    ∀ a b c d : Correspondence ℝ, Spread (Correspondence.sources [a, b, c, d]) →
      Spread (Correspondence.destinations [a, b, c, d]) →
      ¬ AlmostCollinear (Correspondence.sources [a, b, c, d]) →
      GeneralPosition a.destination b.destination c.destination d.destination →
        ∃ K : Homography ℝ, H.estimateWithin 0 0 [a, b, c, d] = (true, K) ∧
          ∀ e ∈ [a, b, c, d], K.matrix.project? 0 e.source = some e.destination := by
  refine ⟨?_, ?_, ?_⟩
  · intro tolerance regularity htolerance hregularity data hflat
    unfold estimateWithin
    rw [Linear.estimateWithin?_of_almostCollinear htolerance hregularity hflat]
    rfl
  · intro tolerance regularity htolerance hregularity a b c d hflat
    unfold estimateWithin
    rw [Linear.estimateWithin?_of_collinear_destinations htolerance hregularity hflat]
    rfl
  · intro a b c d hsources hdestinations hspread hdestination
    obtain ⟨K, hK, himage⟩ := Linear.exists_estimate_of_generalPosition
      (not_not.mp (mt almostCollinear_iff.mpr hspread)) hdestination hsources hdestinations
    refine ⟨⟨K⟩, ?_, himage⟩
    unfold estimateWithin
    rw [hK]
    rfl

end Decision

/-- With the chosen decomposition the identity is estimated from the square, and the estimation
itself is refused once a corner is repeated. -/
theorem estimateWithin_decides_square :
    letI : Spectral ℝ := Spectral.chosen
    (∃ K : Homography ℝ, identity.estimateWithin 0 0 square = (true, K) ∧
      ∀ e ∈ square, K.matrix.project? 0 e.source = some e.destination) ∧
    identity.estimate (⟨⟨-1, 1⟩, ⟨-1, 1⟩⟩ :: square.tail) = (false, identity) := by
  let spectral : Spectral ℝ := Spectral.chosen
  have hexact : Spectral.Exact := Spectral.chosen_exact
  have hspread := Normalization.exists_transform_iff.mp ⟨_, transform?_square⟩
  have hcorners : GeneralPosition ⟨1, 1⟩ ⟨-1, 1⟩ ⟨-1, -1⟩ ⟨1, -1⟩ := by
    constructor <;> norm_num [Point.Collinear, Point.area]
  obtain ⟨-, hcollinear, hsucceeds⟩ := estimateWithin_decides identity
  constructor
  · exact hsucceeds _ _ _ _ hspread hspread (fun h => almostCollinear_iff.mp h hcorners) hcorners
  · rw [estimate_eq]
    exact hcollinear _ _ (Exact.decimal_pos Nat.one_pos 10).le
      (Exact.decimal_pos Nat.one_pos 12).le _ _ _ _
      fun h => h.first (Point.collinear_left _ _).rotate.rotate

end Homography

end Projectivity
