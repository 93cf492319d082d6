import Projectivity.Proofs.Exact.Gram
import Projectivity.Proofs.Exact.Recovery

/-!
# Estimates from inconsistent correspondences

Correspondences with errors have no transform that carries all of them, and the estimate
is the one with the least algebraic error in normalized coordinates.  The rows of the
linear system measure that error, so that it is the squared length of an image under the
system, and no vector of length one is stretched less than the last singular vector.
-/

set_option autoImplicit false

namespace Projectivity

/-- A transform scaled to norm one. -/
noncomputable def Matrix3.unit (A : Matrix3 ℝ) : Matrix3 ℝ := A.scaleDown A.norm

namespace Linear

open Normalization (normalize)

variable {data : List (Correspondence ℝ)} {S D G H : Matrix3 ℝ}

/-- How far the homogeneous image of a source is from the destination, without a division by its
weight. -/
noncomputable def deviation (G : Matrix3 ℝ) (c : Correspondence ℝ) : ℝ :=
  let h := G.apply c.source
  (h.x - c.destination.x * h.w) ^ 2 + (h.y - c.destination.y * h.w) ^ 2

/-- The algebraic error of a transform between normalized coordinates. -/
noncomputable def algebraicError (S D : Matrix3 ℝ) (data : List (Correspondence ℝ))
    (G : Matrix3 ℝ) : ℝ :=
  (data.map fun c => deviation G ⟨normalize S c.source, normalize D c.destination⟩).sum

section Form

/-- The squares of the two equations add up to the deviation. -/
theorem sum_equations (G : Matrix3 ℝ) (c : Correspondence ℝ) :
    ((equations c).map fun r => (∑ j : Fin 9, r.getD j 0 * unknowns G j) ^ 2).sum =
      deviation G c := by
  simp [equations, deviation, unknowns, Fin.sum_univ_succ, Matrix3.apply, Matrix3.act]
  ring

/-- The algebraic error is the squared length of an image under the linear system. -/
theorem algebraicError_eq (S D : Matrix3 ℝ) (data : List (Correspondence ℝ)) (G : Matrix3 ℝ) :
    algebraicError S D data G = dotProduct ((matrixOf (system S D data) 9).mulVec (unknowns G))
      ((matrixOf (system S D data) 9).mulVec (unknowns G)) := by
  rw [dotProduct_matrixOf_mulVec]
  unfold algebraicError system
  induction data with
  | nil => rfl
  | cons c rest ih =>
    rw [List.map_cons, List.sum_cons, ih, List.flatMap_cons, List.map_append, List.sum_append,
      sum_equations]

/-- The squared length of the unknowns is the square of the norm. -/
theorem dotProduct_unknowns (G : Matrix3 ℝ) :
    dotProduct (unknowns G) (unknowns G) = G.norm ^ 2 := by
  rw [Matrix3.norm_eq, Real.sq_sqrt (by positivity)]
  simp [dotProduct, unknowns, Fin.sum_univ_succ]
  ring

/-- A factor of the matrix counts twice in the algebraic error. -/
theorem algebraicError_scale (k : ℝ) (G : Matrix3 ℝ) :
    algebraicError S D data (G.scale k) = k ^ 2 * algebraicError S D data G := by
  have hscaled : unknowns (G.scale k) = k • unknowns G := unknowns_scale k G
  rw [algebraicError_eq, algebraicError_eq, hscaled, Matrix.mulVec_smul, smul_dotProduct,
    dotProduct_smul, smul_smul, smul_eq_mul, pow_two]

end Form

section Estimate

variable [Spectral ℝ] [Spectral.Exact] {tolerance : ℝ}

/-- The solution of a system has norm one, and no other transform of norm one has a smaller
algebraic error. -/
theorem solution_minimizes (henough : 8 ≤ (system S D data).length)
    (hG : solution? tolerance (system S D data) = some G) : G.norm = 1 ∧
      ∀ X : Matrix3 ℝ, X.norm = 1 → algebraicError S D data G ≤ algebraicError S D data X := by
  obtain ⟨d, L, hL, hsolution⟩ := exists_solution?_eq length_of_mem_system henough
  rw [hsolution, Option.ite_none_left_eq_some, Option.some.injEq] at hG
  obtain ⟨-, rfl⟩ := hG
  have hlength : L.norm ^ 2 = 1 := by
    rw [← dotProduct_unknowns, hL]
    exact (d.vectors_dot 8 8).trans (if_pos rfl)
  have hleast : algebraicError S D data L = d.values 8 ^ 2 := by
    rw [algebraicError_eq, hL, d.values_sq]
    exact Finset.sum_congr rfl fun i _ => (pow_two _).symm
  refine ⟨(pow_eq_one_iff_of_nonneg L.norm_nonneg two_ne_zero).mp hlength, fun X hX => ?_⟩
  calc algebraicError S D data L = d.values 8 ^ 2 * dotProduct (unknowns X) (unknowns X) := by
        rw [hleast, dotProduct_unknowns, hX, one_pow, mul_one]
    _ ≤ algebraicError S D data X := by
        rw [algebraicError_eq]
        exact d.le_dotProduct_mulVec_self (fun j => d.descending (Fin.le_last j)) _

/-- An estimate that is moved to normalized coordinates and scaled to norm one has the least
algebraic error there. -/
theorem estimate_minimizes (h : estimate? tolerance data = some H) :
    ∃ S D, Normalization.transform? (Correspondence.sources data) = some S ∧
      Normalization.transform? (Correspondence.destinations data) = some D ∧
      ((D.mul H).mul S.inverse).unit.norm = 1 ∧
      ∀ G : Matrix3 ℝ, G.norm = 1 →
        algebraicError S D data ((D.mul H).mul S.inverse).unit ≤ algebraicError S D data G := by
  obtain ⟨K, hK, hproportional⟩ := exists_candidate_proportional h
  obtain ⟨S, D, G, hsolves, rfl⟩ := candidate?_eq_some_iff.mp hK
  obtain ⟨hS, -⟩ := normalization_cases hsolves.source
  obtain ⟨hD, -⟩ := normalization_cases hsolves.destination
  obtain ⟨hnorm, hleast⟩ := solution_minimizes hsolves.length_system hsolves.solution
  obtain ⟨c, hc, hmoved⟩ : ((D.mul H).mul S.inverse).Proportional G :=
    Matrix3.change_there hS hD (C := G) ▸ hproportional.change
  -- At norm one only the sign of the factor is left, and the error is a square in it.
  have hunit : (G.scale c).unit = G.scale (|c|⁻¹ * c) := by
    rw [Matrix3.unit, Matrix3.scaleDown_eq, Matrix3.scale_scale, Matrix3.norm_scale, hnorm, mul_one]
  have hfactor : |(|c|⁻¹ * c)| = 1 := by
    rw [abs_mul, abs_inv, abs_abs, inv_mul_cancel₀ (abs_ne_zero.mpr hc)]
  refine ⟨S, D, hsolves.source, hsolves.destination, ?_, fun X hX => ?_⟩
  · rw [hmoved, hunit, Matrix3.norm_scale, hfactor, hnorm, one_mul]
  · rw [hmoved, hunit, algebraicError_scale, ← sq_abs, hfactor, one_pow, one_mul]
    exact hleast X hX

end Estimate

/-- With the chosen decomposition there is an estimate from the square, and it has the least
algebraic error. -/
theorem estimate_minimizes_square :
    letI : Spectral ℝ := Spectral.chosen
    ∃ H, estimate? rankTolerance square = some H ∧
      ∃ S D, Normalization.transform? (Correspondence.sources square) = some S ∧
        Normalization.transform? (Correspondence.destinations square) = some D ∧
        ((D.mul H).mul S.inverse).unit.norm = 1 ∧
        ∀ G : Matrix3 ℝ, G.norm = 1 → algebraicError S D square ((D.mul H).mul S.inverse).unit ≤
          algebraicError S D square G := by
  let spectral : Spectral ℝ := Spectral.chosen
  have hexact : Spectral.Exact := Spectral.chosen_exact
  obtain ⟨H, hH⟩ := Option.ne_none_iff_exists'.mp estimate?_square
  exact ⟨H, hH, estimate_minimizes hH⟩

end Linear

end Projectivity
