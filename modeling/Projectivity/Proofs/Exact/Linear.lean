import Projectivity.Homography.Linear
import Projectivity.Proofs.Exact.Projection
import Projectivity.Proofs.Exact.Singular

/-!
# Exact linear estimation

An estimate is accepted only if the linear system of its sample has a kernel of one
dimension.  So an accepted sample determines every transform that carries it up to a
factor, and the estimate is the one of norm one among them.
-/

set_option autoImplicit false

namespace Projectivity.Linear

section Steps

variable {α : Type} [Scalar α] [Spectral α] {tolerance regularity : α}
variable {sample : List (Correspondence α)} {H : Matrix3 α}

/-- The solution of the system of a list of correspondences in the coordinates of the views, before
it is tested for singularity. -/
def candidate? (tolerance : α) (sample : List (Correspondence α)) : Option (Matrix3 α) := do
  if sample.length < minItems then none
  else
    let S ← Normalization.transform? (Correspondence.sources sample)
    let D ← Normalization.transform? (Correspondence.destinations sample)
    let G ← solution? tolerance (system S D sample)
    return (D.inverse.mul G).mul S

/-- The estimate with a tolerance for each of its two tests: the first is for the rank of the
system, and the second for the singularity of the solution. -/
def estimateWithin? (tolerance regularity : α) (sample : List (Correspondence α)) :
    Option (Matrix3 α) := do
  let H ← candidate? tolerance sample
  if H.isNonSingular regularity then some H.canonicalScale else none

/-- The estimate is the one with the tolerance for transforms in its second test. -/
theorem estimate?_eq (tolerance : α) (sample : List (Correspondence α)) :
    estimate? tolerance sample = estimateWithin? tolerance Matrix3.rankTolerance sample := by
  unfold estimate? estimateWithin? candidate?
  split
  · rfl
  · simp only [Option.bind_eq_bind, Option.bind_assoc, Option.pure_def, Option.bind_some]

/-- The steps that lead to a candidate. -/
structure Solves (tolerance : α) (sample : List (Correspondence α)) (S D G : Matrix3 α) : Prop where
  enough : minItems ≤ sample.length
  source : Normalization.transform? (Correspondence.sources sample) = some S
  destination : Normalization.transform? (Correspondence.destinations sample) = some D
  solution : solution? tolerance (system S D sample) = some G

/-- A candidate is a solution in the coordinates before the normalization. -/
theorem candidate?_eq_some_iff : candidate? tolerance sample = some H ↔
    ∃ S D G, Solves tolerance sample S D G ∧ H = (D.inverse.mul G).mul S := by
  unfold candidate?
  constructor
  · intro h
    split at h
    · cases h
    rename_i henough
    simp only [Option.bind_eq_bind, Option.bind_eq_some_iff] at h
    obtain ⟨S, hS, D, hD, G, hG, h⟩ := h
    exact ⟨S, D, G, ⟨Nat.le_of_not_lt henough, hS, hD, hG⟩, (Option.some.inj h).symm⟩
  · rintro ⟨S, D, G, h, rfl⟩
    rw [if_neg (Nat.not_lt.mpr h.enough), h.source, h.destination]
    simp only [Option.bind_eq_bind, Option.bind_some, h.solution]
    rfl

/-- An estimate is a candidate that is not singular, scaled. -/
theorem estimateWithin?_eq_some_iff : estimateWithin? tolerance regularity sample = some H ↔
    ∃ K, candidate? tolerance sample = some K ∧ K.isNonSingular regularity = true ∧
      H = K.canonicalScale := by
  unfold estimateWithin?
  simp only [Option.bind_eq_bind, Option.bind_eq_some_iff, Option.ite_none_right_eq_some,
    Option.some.injEq, @eq_comm _ H]

end Steps

variable {sample : List (Correspondence ℝ)} {X : Matrix3 ℝ}

/-- Enough correspondences are some. -/
theorem ne_nil_of_enough (h : minItems ≤ sample.length) : sample ≠ [] :=
  List.ne_nil_of_length_pos (Nat.lt_of_lt_of_le (by decide) h)

/-- The entries of a transform as a vector of unknowns. -/
def unknowns (X : Matrix3 ℝ) : Fin 9 → ℝ :=
  ![X.m11, X.m12, X.m13, X.m21, X.m22, X.m23, X.m31, X.m32, X.m33]

/-- A transform carries a correspondence exactly if its entries solve the equations of it. -/
theorem carries_iff_equations {c : Correspondence ℝ} :
    X.Carries c ↔ ∀ r ∈ equations c, ∑ j : Fin 9, r.getD j 0 * unknowns X j = 0 := by
  rw [Matrix3.carries_iff]
  simp only [equations, List.forall_mem_cons, List.not_mem_nil, false_implies, implies_true,
    and_true, Matrix3.apply, Matrix3.act, mul_one]
  refine and_congr ?_ ?_
  · simp [Fin.sum_univ_succ, unknowns]
    constructor <;> intro h <;> linear_combination h
  · simp [Fin.sum_univ_succ, unknowns]
    constructor <;> intro h <;> linear_combination h

/-- The unknowns in order are the entries. -/
theorem ofFn_unknowns (X : Matrix3 ℝ) : List.ofFn (unknowns X) = X.entries := by
  simp [unknowns, Matrix3.entries, List.ofFn_succ]

/-- A matrix is given by its unknowns. -/
theorem unknowns_injective {G : Matrix3 ℝ} (h : unknowns X = unknowns G) : X = G := by
  have hentries : X.entries = G.entries := by rw [← ofFn_unknowns, h, ofFn_unknowns]
  have hsame := congrArg Matrix3.ofEntries? hentries
  rwa [Matrix3.ofEntries?_entries, Matrix3.ofEntries?_entries, Option.some.injEq] at hsame

/-- A factor of the matrix is a factor of the unknowns. -/
theorem unknowns_scale (k : ℝ) (G : Matrix3 ℝ) :
    unknowns (G.scale k) = fun j => k * unknowns G j := by
  apply List.ofFn_injective
  rw [ofFn_unknowns]
  calc (G.scale k).entries = G.entries.map (k * ·) := rfl
    _ = (List.ofFn (unknowns G)).map (k * ·) := by rw [ofFn_unknowns]
    _ = List.ofFn fun j => k * unknowns G j := List.map_ofFn

/-- Every vector of unknowns is that of a transform. -/
theorem exists_unknowns_eq (x : Fin 9 → ℝ) : ∃ X : Matrix3 ℝ, unknowns X = x := by
  refine ⟨⟨x 0, x 1, x 2, x 3, x 4, x 5, x 6, x 7, x 8⟩, ?_⟩
  funext j
  fin_cases j <;> rfl

/-- An equation has nine coefficients. -/
theorem length_of_mem_equations {c : Correspondence ℝ} {r : List ℝ} (h : r ∈ equations c) :
    r.length = 9 := by
  simp only [equations, List.mem_cons, List.not_mem_nil, or_false] at h
  rcases h with rfl | rfl <;> rfl

/-- A system has two equations for each correspondence. -/
theorem length_system (S D : Matrix3 ℝ) : (system S D sample).length = 2 * sample.length := by
  unfold system
  induction sample with
  | nil => rfl
  | cons c rest ih =>
    rw [List.flatMap_cons, List.length_append, ih, List.length_cons]
    simp only [equations, List.length_cons, List.length_nil]
    omega

/-- A normalizing transform is not singular, and maps a point to its normalized coordinates. -/
theorem normalization_cases {points : List (Point ℝ)} {S : Matrix3 ℝ}
    (h : Normalization.transform? points = some S) :
    S.det ≠ 0 ∧ ∀ p, S.apply p = (Normalization.normalize S p).lift := by
  unfold Normalization.transform? at h
  simp only [Exact.isFinite_eq, Bool.true_and, Bool.not_eq_true', decide_eq_false_iff_not] at h
  split at h
  · rename_i hspread
    have hpos : 0 < Normalization.meanDistance points (Point.centroid points) :=
      lt_of_lt_of_le (Exact.decimal_pos Nat.one_pos 12) (not_lt.mp hspread)
    have hscale : 0 < Real.sqrt ((2 : ℕ) : ℝ) /
        Normalization.meanDistance points (Point.centroid points) := by positivity
    rw [Option.some.injEq] at h
    subst h
    simp only [Exact.sqrt_eq]
    generalize Real.sqrt _ / _ = s at hscale
    constructor
    · simp [Normalization.similarity, Matrix3.det, hscale.ne']
    · intro p
      simp [Normalization.similarity, Normalization.normalize, Matrix3.apply, Matrix3.act,
        Point.lift]
  · cases h

section System

variable {S D G : Matrix3 ℝ}

/-- All equations of a system have nine coefficients. -/
theorem length_of_mem_system : ∀ r ∈ system S D sample, r.length = 9 := by
  intro r hr
  obtain ⟨c, _, hr⟩ := List.mem_flatMap.mp hr
  exact length_of_mem_equations hr

/-- A system that is solved has eight equations at least. -/
theorem Solves.length_system [Spectral ℝ] {tolerance : ℝ} (h : Solves tolerance sample S D G) :
    8 ≤ (system S D sample).length := by
  have henough := h.enough
  unfold minItems at henough
  rw [Linear.length_system]
  omega

/-- Normalized coordinates are the same for a point in other coordinates, if the normalizing
transform changes them back first. -/
theorem normalize_change {A T : Matrix3 ℝ} {p q : Point ℝ} (hA : A.det ≠ 0)
    (h : A.apply p = q.lift) :
    Normalization.normalize (T.mul A.inverse) q = Normalization.normalize T p := by
  have hback : (T.mul A.inverse).apply q = T.apply p := by
    calc (T.mul A.inverse).apply q = T.act (A.inverse.act q.lift) := Matrix3.act_mul _ _ _
      _ = T.apply p := by
        rw [← h, Matrix3.apply, ← Matrix3.act_mul A.inverse, Matrix3.inverse_mul hA,
          Matrix3.one_act]
        rfl
  unfold Normalization.normalize
  rw [hback]

/-- Changing the coordinates of the two views does not change the system, if the normalizing
transforms change them back first. -/
theorem system_change {A B : Matrix3 ℝ} {f : Correspondence ℝ → Correspondence ℝ}
    (hA : A.det ≠ 0) (hB : B.det ≠ 0) (hsource : ∀ c, A.apply c.source = (f c).source.lift)
    (hdestination : ∀ c, B.apply c.destination = (f c).destination.lift) :
    system (S.mul A.inverse) (D.mul B.inverse) (sample.map f) = system S D sample := by
  unfold system
  rw [List.flatMap_map]
  refine List.flatMap_congr fun c _ => congrArg equations ?_
  rw [normalize_change hA (hsource c), normalize_change hB (hdestination c)]

/-- The system speaks of normalized coordinates, so that the transforms that carry a sample solve it
after they are moved there. -/
theorem solves_system_iff (hS : Normalization.transform? (Correspondence.sources sample) = some S)
    (hD : Normalization.transform? (Correspondence.destinations sample) = some D) :
    (∀ r ∈ system S D sample,
        ∑ j : Fin 9, r.getD j 0 * unknowns ((D.mul X).mul S.inverse) j = 0) ↔
      ∀ c ∈ sample, X.Carries c := by
  obtain ⟨hS, hsource⟩ := normalization_cases hS
  obtain ⟨hD, hdestination⟩ := normalization_cases hD
  have hchange : ∀ c : Correspondence ℝ, ((D.mul X).mul S.inverse).Carries
      ⟨Normalization.normalize S c.source, Normalization.normalize D c.destination⟩ ↔
        X.Carries c :=
    fun c => Matrix3.carries_change_iff hS hD (hsource c.source) (hdestination c.destination)
  simp only [system, List.mem_flatMap, forall_exists_index, and_imp, ← hchange,
    carries_iff_equations]
  exact ⟨fun h c hc r hr => h r c hc hr, fun h r c hc hr => h c hc r hr⟩

end System

variable [Spectral ℝ] [Spectral.Exact] {tolerance : ℝ}

/-- The solution of a system is the last singular vector, unless the eighth singular value is small
against the first. -/
theorem exists_solution?_eq {rows : List (List ℝ)} (hwidth : ∀ r ∈ rows, r.length = 9)
    (henough : 8 ≤ rows.length) : ∃ (d : Decomposition (matrixOf rows 9)) (G : Matrix3 ℝ),
      (unknowns G = fun j => d.vectors j 8) ∧ ∀ tolerance : ℝ, solution? tolerance rows =
        if d.values 7 ≤ tolerance * d.values 0 then none else some G := by
  obtain ⟨d, hd⟩ := exists_decomposition hwidth (by omega)
  obtain ⟨G, hG⟩ := exists_unknowns_eq fun j => d.vectors j 8
  refine ⟨d, G, hG, fun tolerance => ?_⟩
  have hfirst : d.spectrum.values[0]? = some (d.values 0) := by
    have hzero : 0 < rows.length := by omega
    simp [Decomposition.spectrum, hzero]
  have height : d.spectrum.values[7]? = some (d.values 7) := by
    have hseven : 7 < rows.length := by omega
    simp [Decomposition.spectrum, hseven]
  have hkernel : d.spectrum.vectors[8]? = some G.entries := by
    rw [← ofFn_unknowns, hG]
    simp [Decomposition.spectrum]
  simp only [solution?, hd, hfirst, height, hkernel, Matrix3.ofEntries?_entries]

/-- The solution of a system is unique up to a factor if it is accepted. -/
theorem eq_scale_of_solution {rows : List (List ℝ)} {G : Matrix3 ℝ} (htolerance : 0 ≤ tolerance)
    (hwidth : ∀ r ∈ rows, r.length = 9) (henough : 8 ≤ rows.length)
    (h : solution? tolerance rows = some G)
    (hX : ∀ r ∈ rows, ∑ j : Fin 9, r.getD j 0 * unknowns X j = 0) : ∃ k : ℝ, X = G.scale k := by
  obtain ⟨d, K, hK, hsolution⟩ := exists_solution?_eq hwidth henough
  rw [hsolution, Option.ite_none_left_eq_some, not_le, Option.some.injEq] at h
  obtain ⟨hgap, rfl⟩ := h
  have hpos : 0 < d.values 7 := lt_of_le_of_lt (mul_nonneg htolerance (d.nonneg 0)) hgap
  have hothers : ∀ j, j ≠ 8 → 0 < d.values j := by
    intro j hj
    have hle : j ≤ 7 := by omega
    exact lt_of_lt_of_le hpos (d.descending hle)
  obtain ⟨k, hk⟩ := d.eq_smul_of_mulVec_eq_zero 8 hothers (matrixOf_mulVec_eq_zero_iff.mpr hX)
  refine ⟨k, unknowns_injective ?_⟩
  rw [unknowns_scale, hK]
  exact hk

/-- A sample with a candidate determines the transforms that carry it up to a factor. -/
theorem eq_scale_of_carries {H : Matrix3 ℝ} (htolerance : 0 ≤ tolerance)
    (h : candidate? tolerance sample = some H) (hX : ∀ c ∈ sample, X.Carries c) :
    ∃ k : ℝ, X = H.scale k := by
  obtain ⟨S, D, G, hsolves, rfl⟩ := candidate?_eq_some_iff.mp h
  obtain ⟨hS, -⟩ := normalization_cases hsolves.source
  obtain ⟨hD, -⟩ := normalization_cases hsolves.destination
  have hsystem := (solves_system_iff hsolves.source hsolves.destination).mpr hX
  obtain ⟨k, hk⟩ := eq_scale_of_solution htolerance length_of_mem_system hsolves.length_system
    hsolves.solution hsystem
  refine ⟨k, ?_⟩
  rw [← Matrix3.change_back hS hD (C := X), hk, Matrix3.mul_scale, Matrix3.scale_mul]

/-- The estimate from a sample that a non-singular transform carries is that transform. -/
theorem estimateWithin_proportional {regularity : ℝ} {H : Matrix3 ℝ} (htolerance : 0 ≤ tolerance)
    (hregularity : 0 ≤ regularity) (h : estimateWithin? tolerance regularity sample = some H)
    (hdet : X.det ≠ 0) (hX : ∀ c ∈ sample, X.Carries c) : H.Proportional X := by
  obtain ⟨K, hK, hregular, rfl⟩ := estimateWithin?_eq_some_iff.mp h
  have hKdet := (Matrix3.isNonSingular_iff_regular.mp hregular).det_ne_zero hregularity
  obtain ⟨k, hk⟩ := eq_scale_of_carries htolerance hK hX
  exact (Matrix3.canonicalScale_proportional hKdet).trans
    (Matrix3.proportional_of_eq_scale hdet hk).symm

/-- An estimate from correspondences that a transform carries is proportional to it. -/
theorem estimate_proportional {H : Matrix3 ℝ} (htolerance : 0 ≤ tolerance)
    (h : estimate? tolerance sample = some H) (hdet : X.det ≠ 0) (hX : ∀ c ∈ sample, X.Carries c) :
    H.Proportional X := by
  rw [estimate?_eq] at h
  exact estimateWithin_proportional htolerance (Exact.decimal_pos Nat.one_pos 12).le h hdet hX

/-- An estimate is the transform of its candidate. -/
theorem exists_candidate_proportional {H : Matrix3 ℝ} (h : estimate? tolerance sample = some H) :
    ∃ K, candidate? tolerance sample = some K ∧ H.Proportional K := by
  rw [estimate?_eq] at h
  obtain ⟨K, hK, hregular, rfl⟩ := estimateWithin?_eq_some_iff.mp h
  exact ⟨K, hK, Matrix3.canonicalScale_proportional (Matrix3.det_ne_zero_of_isNonSingular hregular)⟩

/-- An estimate has norm one and a last entry that is not negative. -/
theorem estimate_canonical {H : Matrix3 ℝ} (h : estimate? tolerance sample = some H) :
    H.norm = 1 ∧ 0 ≤ H.m33 := by
  rw [estimate?_eq] at h
  obtain ⟨K, -, hregular, rfl⟩ := estimateWithin?_eq_some_iff.mp h
  exact ⟨Matrix3.norm_canonicalScale (Matrix3.det_ne_zero_of_isNonSingular hregular),
    K.canonicalScale_m33_nonneg⟩

/-- Non-singular transforms that carry the same accepted sample are the same. -/
theorem proportional_of_carries {Y : Matrix3 ℝ} (htolerance : 0 ≤ tolerance)
    (haccepted : estimate? tolerance sample ≠ none) (hdet : X.det ≠ 0) (hother : Y.det ≠ 0)
    (hX : ∀ c ∈ sample, X.Carries c) (hY : ∀ c ∈ sample, Y.Carries c) : X.Proportional Y := by
  obtain ⟨H, h⟩ := Option.ne_none_iff_exists'.mp haccepted
  exact (estimate_proportional htolerance h hdet hX).symm.trans
    (estimate_proportional htolerance h hother hY)

end Projectivity.Linear
