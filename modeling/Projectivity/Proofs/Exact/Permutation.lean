import Projectivity.Proofs.Exact.Gram
import Projectivity.Proofs.Exact.Recovery

/-!
# Estimates and the order of the correspondences

The centroid, the spread and the Gram matrix of the linear system are sums over the
correspondences, so that another order has the same normalization and the same singular
values.  A solution is a singular vector, which is determined up to a factor if its
value is simple.  The convention on norm and sign then fixes the factor, unless the last
entry is zero.
-/

set_option autoImplicit false

namespace Projectivity

/-- The sources of permuted correspondences are permuted. -/
theorem Correspondence.sources_perm {data others : List (Correspondence ℝ)}
    (h : data.Perm others) : (sources data).Perm (sources others) := h.map source

/-- The destinations of permuted correspondences are permuted. -/
theorem Correspondence.destinations_perm {data others : List (Correspondence ℝ)}
    (h : data.Perm others) : (destinations data).Perm (destinations others) := h.map destination

section Normalization

variable {points others : List (Point ℝ)}

/-- The centroid does not depend on the order. -/
theorem Point.centroid_perm (h : points.Perm others) : centroid others = centroid points := by
  simp only [centroid, Scalar.mean, List.length_map, h.length_eq, (h.map x).sum_eq,
    (h.map y).sum_eq]

/-- The normalization does not depend on the order. -/
theorem Normalization.transform?_perm (h : points.Perm others) :
    transform? others = transform? points := by
  have hdistance : ∀ p, meanDistance others p = meanDistance points p := by
    intro p
    simp only [meanDistance, Scalar.mean, List.length_map, h.length_eq, (h.map _).sum_eq]
  simp only [transform?, Point.centroid_perm h, hdistance]

end Normalization

namespace Linear

variable {data others : List (Correspondence ℝ)} {S D : Matrix3 ℝ}

/-- One of the nine singular values of the linear system is less than all others, if there is a
system.  The system of four correspondences has eight rows, and its ninth value is zero. -/
def SimpleLeast (data : List (Correspondence ℝ)) : Prop :=
  ∀ S D, Normalization.transform? (Correspondence.sources data) = some S →
    Normalization.transform? (Correspondence.destinations data) = some D →
      ∃ (d : Decomposition (matrixOf (system S D data) 9)) (i : Fin 9),
        ∀ j, j ≠ i → d.values i < d.values j

/-- The systems of permuted correspondences are permuted. -/
theorem system_perm (h : data.Perm others) : (system S D data).Perm (system S D others) :=
  h.flatMap_right _

/-- A least singular value that is simple is so in every order. -/
theorem SimpleLeast.perm (hsimple : SimpleLeast data) (h : data.Perm others) :
    SimpleLeast others := by
  intro S D hS hD
  rw [Normalization.transform?_perm (Correspondence.sources_perm h)] at hS
  rw [Normalization.transform?_perm (Correspondence.destinations_perm h)] at hD
  obtain ⟨d, i, hd⟩ := hsimple S D hS hD
  exact ⟨d.congr (gram_perm (system_perm h)), i, hd⟩

section Orders

variable [Spectral ℝ] [Spectral.Exact] {tolerance : ℝ} {H : Matrix3 ℝ}

/-- The solution of a system with a simple least singular value does not depend on the order of the
rows, up to a factor. -/
theorem exists_solution_perm {rows others : List (List ℝ)} {G : Matrix3 ℝ} (h : rows.Perm others)
    (hwidth : ∀ r ∈ rows, r.length = 9) (henough : 8 ≤ rows.length)
    (hsimple : ∃ (d : Decomposition (matrixOf rows 9)) (i : Fin 9),
      ∀ j, j ≠ i → d.values i < d.values j)
    (hG : solution? tolerance rows = some G) :
    ∃ c : ℝ, c ≠ 0 ∧ solution? tolerance others = some (G.scale c) := by
  obtain ⟨d, L, hL, hsolution⟩ := exists_solution?_eq hwidth henough
  obtain ⟨e, K, hK, hother⟩ := exists_solution?_eq (fun r hr => hwidth r (h.mem_iff.mpr hr))
    (h.length_eq ▸ henough)
  rw [hsolution, Option.ite_none_left_eq_some, Option.some.injEq] at hG
  obtain ⟨hgap, rfl⟩ := hG
  obtain ⟨f, i, hf⟩ := hsimple
  have hlast : i = 8 := by
    by_contra hne
    exact absurd (f.descending (Fin.le_last i)) (not_le.mpr (hf 8 (Ne.symm hne)))
  have hleast : ∀ j, j ≠ 8 → d.values 8 < d.values j := by
    rw [d.values_unique f]
    exact hlast ▸ hf
  -- The other decomposition is one of the same matrix, and its vectors can be compared there.
  let moved : Decomposition (matrixOf rows 9) := e.congr (gram_perm h).symm
  have hvalues : e.values = d.values := moved.values_unique d
  obtain ⟨c, hc, hvectors⟩ := d.exists_vectors_eq moved hleast
  refine ⟨c, hc, ?_⟩
  rw [hother, hvalues, if_neg hgap, Option.some.injEq]
  apply unknowns_injective
  rw [unknowns_scale, hK, hL]
  exact hvectors

/-- The candidates from permuted correspondences are multiples of each other. -/
theorem exists_candidate_perm (h : data.Perm others) (hsimple : SimpleLeast data)
    (hH : candidate? tolerance data = some H) :
    ∃ c : ℝ, c ≠ 0 ∧ candidate? tolerance others = some (H.scale c) := by
  obtain ⟨S, D, G, hsolves, rfl⟩ := candidate?_eq_some_iff.mp hH
  obtain ⟨c, hc, hsolution⟩ := exists_solution_perm (system_perm h) length_of_mem_system
    hsolves.length_system (hsimple S D hsolves.source hsolves.destination) hsolves.solution
  refine ⟨c, hc, candidate?_eq_some_iff.mpr ⟨S, D, G.scale c, ⟨?_, ?_, ?_, hsolution⟩, ?_⟩⟩
  · exact h.length_eq ▸ hsolves.enough
  · exact (Normalization.transform?_perm (Correspondence.sources_perm h)).trans hsolves.source
  · exact (Normalization.transform?_perm (Correspondence.destinations_perm h)).trans
      hsolves.destination
  · rw [Matrix3.mul_scale, Matrix3.scale_mul]

/-- The estimates from two orders of the correspondences are the same up to a factor. -/
theorem exists_estimate_perm (h : data.Perm others) (hsimple : SimpleLeast data)
    (hH : estimate? tolerance data = some H) :
    ∃ K, estimate? tolerance others = some K ∧ H.Proportional K := by
  rw [estimate?_eq] at hH ⊢
  obtain ⟨C, hC, hregular, rfl⟩ := estimateWithin?_eq_some_iff.mp hH
  obtain ⟨c, hc, hother⟩ := exists_candidate_perm h hsimple hC
  have hsame := (Matrix3.isNonSingular_scale hc).mpr hregular
  have hscaled : (C.scale c).Proportional C := ⟨c, hc, rfl⟩
  refine ⟨_, estimateWithin?_eq_some_iff.mpr ⟨_, hother, hsame, rfl⟩, ?_⟩
  have hthere := Matrix3.canonicalScale_proportional (Matrix3.det_ne_zero_of_isNonSingular hregular)
  have hback := Matrix3.canonicalScale_proportional (Matrix3.det_ne_zero_of_isNonSingular hsame)
  exact hthere.trans (hscaled.symm.trans hback.symm)

/-- Correspondences whose system has a simple least singular value are accepted in every order or in
none, and two estimates are equal whenever the last entry of one of them is not zero. -/
theorem estimate_perm (h : data.Perm others) (hsimple : SimpleLeast data) (tolerance : ℝ) :
    (estimate? tolerance data = none ↔ estimate? tolerance others = none) ∧
      ∀ H K, estimate? tolerance data = some H → estimate? tolerance others = some K →
        H.m33 ≠ 0 ∨ K.m33 ≠ 0 → H = K := by
  constructor
  · rw [Option.eq_none_iff_forall_ne_some, Option.eq_none_iff_forall_ne_some]
    constructor
    · intro hnone K hK
      obtain ⟨H, hH, -⟩ := exists_estimate_perm h.symm (hsimple.perm h) hK
      exact hnone H hH
    · intro hnone H hH
      obtain ⟨K, hK, -⟩ := exists_estimate_perm h hsimple hH
      exact hnone K hK
  · intro H K hH hK hlast
    obtain ⟨L, hL, hproportional⟩ := exists_estimate_perm h hsimple hH
    obtain rfl := Option.some.inj (hK.symm.trans hL)
    obtain ⟨hHnorm, hHlast⟩ := estimate_canonical hH
    obtain ⟨hKnorm, hKlast⟩ := estimate_canonical hK
    rcases hlast with hne | hne
    · exact (hproportional.symm.eq_of_norm_eq (hKnorm.trans hHnorm.symm) (hHnorm ▸ one_pos)
        hKlast hHlast hne).symm
    · exact hproportional.eq_of_norm_eq (hHnorm.trans hKnorm.symm) (hKnorm ▸ one_pos)
        hHlast hKlast hne

/-- The system of four correspondences with a candidate has a simple least singular value. -/
theorem simpleLeast_of_four (htolerance : 0 ≤ tolerance) (hfour : data.length = 4)
    (h : candidate? tolerance data = some H) : SimpleLeast data := by
  intro S D hS hD
  obtain ⟨S', D', G, hsolves, -⟩ := candidate?_eq_some_iff.mp h
  obtain rfl := Option.some.inj (hS.symm.trans hsolves.source)
  obtain rfl := Option.some.inj (hD.symm.trans hsolves.destination)
  obtain ⟨d, L, -, hsolution⟩ := exists_solution?_eq length_of_mem_system hsolves.length_system
  have hgap := hsolves.solution
  rw [hsolution, Option.ite_none_left_eq_some, not_le] at hgap
  refine ⟨d, 8, fun j hj => ?_⟩
  have hwide : (system S D data).length < 9 := by
    rw [length_system]
    omega
  have hzero : d.values 8 = 0 :=
    d.values_eq_zero_of_wide hwide fun j => d.descending (Fin.le_last j)
  have hle : j ≤ 7 := by omega
  calc d.values 8 ≤ tolerance * d.values 0 := hzero ▸ mul_nonneg htolerance (d.nonneg 0)
    _ < d.values 7 := hgap.1
    _ ≤ d.values j := d.descending hle

end Orders

/-- With the chosen decomposition the square has the same estimate when it is read backwards. -/
theorem estimate_perm_square :
    letI : Spectral ℝ := Spectral.chosen
    square.Perm square.reverse ∧ SimpleLeast square ∧
      ∃ H, estimate? rankTolerance square = some H ∧ H.m33 ≠ 0 ∧
        estimate? rankTolerance square.reverse = some H := by
  let spectral : Spectral ℝ := Spectral.chosen
  have hexact : Spectral.Exact := Spectral.chosen_exact
  obtain ⟨H, hH⟩ := Option.ne_none_iff_exists'.mp estimate?_square
  have hsimple : SimpleLeast square := by
    obtain ⟨C, hC, -⟩ := exists_candidate_proportional hH
    exact simpleLeast_of_four rankTolerance_nonneg rfl hC
  have hlast : H.m33 ≠ 0 := by
    obtain ⟨c, hc, rfl⟩ :=
      (noiseless_square.represents_of_estimate (fun c hc => hc) hH).proportional
    simpa [Matrix3.scale, Matrix3.map, Matrix3.one] using hc
  have hperm := (List.reverse_perm square).symm
  obtain ⟨hverdict, hequal⟩ := estimate_perm hperm hsimple rankTolerance
  obtain ⟨K, hK⟩ := Option.ne_none_iff_exists'.mp (mt hverdict.mpr estimate?_square)
  obtain rfl := hequal H K hH hK (Or.inl hlast)
  exact ⟨hperm, hsimple, H, hH, hlast, hK⟩

end Linear

end Projectivity
