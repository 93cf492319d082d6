import Projectivity.Proofs.Exact.Singular
import Projectivity.Proofs.Exact.Wide

/-!
# Matrices over wide scalars

A finite matrix over the scalars with special values is a real matrix, and everything
that is computed from it agrees with the real computation wherever that does not divide
by zero.  A matrix that counts as non-singular is finite, whatever it was computed from.
-/

set_option autoImplicit false

namespace Projectivity

open Wide (real)

/-- A real point as a wide one. -/
def Point.widen (p : Point ℝ) : Point Wide := ⟨real p.x, real p.y⟩

namespace Matrix3

variable (A B : Matrix3 ℝ)

/-- A real matrix as a wide one. -/
def widen : Matrix3 Wide := A.map real

/-- A real matrix is finite. -/
theorem isFinite_widen : A.widen.isFinite = true := rfl

/-- A finite matrix is a real one. -/
theorem exists_eq_widen {A : Matrix3 Wide} (h : A.isFinite = true) :
    ∃ B : Matrix3 ℝ, A = B.widen := by
  obtain ⟨a, b, c, d, e, f, g, k, i⟩ := A
  simp only [isFinite, entries, List.all_cons, List.all_nil, Bool.and_true, Bool.and_eq_true] at h
  obtain ⟨ha, hb, hc, hd, he, hf, hg, hk, hi⟩ := h
  obtain ⟨a, rfl⟩ := Wide.exists_eq_real ha
  obtain ⟨b, rfl⟩ := Wide.exists_eq_real hb
  obtain ⟨c, rfl⟩ := Wide.exists_eq_real hc
  obtain ⟨d, rfl⟩ := Wide.exists_eq_real hd
  obtain ⟨e, rfl⟩ := Wide.exists_eq_real he
  obtain ⟨f, rfl⟩ := Wide.exists_eq_real hf
  obtain ⟨g, rfl⟩ := Wide.exists_eq_real hg
  obtain ⟨k, rfl⟩ := Wide.exists_eq_real hk
  obtain ⟨i, rfl⟩ := Wide.exists_eq_real hi
  exact ⟨⟨a, b, c, d, e, f, g, k, i⟩, rfl⟩

/-- The identity is a real matrix. -/
theorem widen_one : (one : Matrix3 ℝ).widen = one := rfl

/-- The product of real matrices is exact. -/
theorem widen_mul : A.widen.mul B.widen = (A.mul B).widen := rfl

/-- The adjugate of a real matrix is exact. -/
theorem widen_adjugate : A.widen.adjugate = A.adjugate.widen := by
  simp [widen, map, adjugate]

/-- The determinant of a real matrix is exact. -/
theorem widen_det : A.widen.det = real A.det := by
  simp [widen, map, det]

/-- The norm of a real matrix is exact. -/
theorem widen_norm : A.widen.norm = real A.norm := by
  unfold norm widen
  rw [entries_map, Wide.norm_map_real]

/-- A real matrix divided by a number other than zero is exact. -/
theorem widen_scaleDown {c : ℝ} (hc : c ≠ 0) :
    A.widen.scaleDown (real c) = (A.scaleDown c).widen := by
  simp [widen, scaleDown, map, Wide.real_div _ hc]

variable {A}

/-- The inverse of a real matrix that is not singular is exact. -/
theorem widen_inverse (hdet : A.det ≠ 0) : A.widen.inverse = A.inverse.widen := by
  have hsize := (A.largestAbs_pos_of_det_ne_zero hdet).ne'
  have hentries : A.widen.entries = A.entries.map real := entries_map real A
  have hscaled : (A.scaleDown (Scalar.largestAbs A.entries)).det ≠ 0 := by
    rw [scaleDown_eq, det_scale]
    exact mul_ne_zero (pow_ne_zero 3 (inv_ne_zero hsize)) hdet
  unfold inverse
  simp only [hentries, Wide.largestAbs_map_real, widen_scaleDown _ hsize, widen_adjugate, widen_det,
    widen_scaleDown _ hscaled]

/-- The canonical scale of a real matrix that is not singular is exact. -/
theorem widen_canonicalScale (hdet : A.det ≠ 0) :
    A.widen.canonicalScale = A.canonicalScale.widen := by
  have hnorm := (norm_pos_of_det_ne_zero hdet).ne'
  have hlast : ∀ B : Matrix3 ℝ, B.widen.m33 < 0 ↔ B.m33 < 0 := fun B => Iff.rfl
  unfold canonicalScale
  simp only [widen_norm, widen_scaleDown _ hnorm, hlast]
  split <;> rfl

end Matrix3

/-- A spectrum with its numbers in another type. -/
def Spectrum.map {α β : Type} (f : α → β) (s : Spectrum α) : Spectrum β :=
  ⟨s.values.map f, s.vectors.map (List.map f)⟩

/-- An exact singular value decomposition of the finite matrices. -/
class Spectral.WideExact [Spectral Wide] : Prop where
  decomposes : ∀ {m n : ℕ} (M : Matrix (Fin m) (Fin n) ℝ), 0 < m →
    ∃ d : Decomposition M,
      Spectral.spectrum ((rowsOf M).map (List.map real)) = d.spectrum.map real

/-- A singular value decomposition of wide matrices, which reads special values as zero. -/
@[reducible] noncomputable def Spectral.widen (spectral : Spectral ℝ) : Spectral Wide :=
  ⟨fun rows => (spectral.spectrum (rows.map (List.map Wide.toReal))).map real⟩

/-- The decomposition of a real matrix is the one of real numbers. -/
theorem Spectral.spectrum_widen (spectral : Spectral ℝ) (rows : List (List ℝ)) :
    spectral.widen.spectrum (rows.map (List.map real)) = (spectral.spectrum rows).map real := by
  have hrow : ∀ r : List ℝ, (r.map real).map Wide.toReal = r := by
    intro r
    rw [List.map_map]
    exact List.map_id r
  have hback : (rows.map (List.map real)).map (List.map Wide.toReal) = rows := by
    rw [List.map_map]
    exact (List.map_congr_left fun r _ => hrow r).trans (List.map_id _)
  show (spectral.spectrum _).map real = _
  rw [hback]

/-- A real decomposition that is exact gives an exact one of the finite matrices. -/
theorem Spectral.widen_exact {spectral : Spectral ℝ} (h : @Spectral.Exact spectral) :
    @Spectral.WideExact spectral.widen := by
  refine @Spectral.WideExact.mk spectral.widen fun {m n} M hm => ?_
  obtain ⟨d, hd⟩ := h.decomposes M hm
  exact ⟨d, (spectral.spectrum_widen (rowsOf M)).trans (congrArg (Spectrum.map real) hd)⟩

namespace Matrix3

variable [Spectral Wide] [Spectral.WideExact] {tolerance : ℝ}

/-- A real matrix counts as non-singular among the wide ones exactly if it is regular. -/
theorem isNonSingular_widen_iff (A : Matrix3 ℝ) :
    A.widen.isNonSingular (real tolerance) = true ↔ A.Regular tolerance := by
  obtain ⟨d, hd⟩ := Spectral.WideExact.decomposes A.toMatrix (by decide)
  have hrows : (rowsOf A.toMatrix).map (List.map real) = A.widen.rows := by
    simp [rowsOf, toMatrix, rows, widen, map, List.ofFn_succ]
  have hvalues : (Spectral.spectrum A.widen.rows).values =
      [real (d.values 0), real (d.values 1), real (d.values 2)] := by
    rw [← hrows, hd]
    simp [Spectrum.map, Decomposition.spectrum, List.ofFn_succ]
  rw [regular_iff d, isNonSingular, hvalues, isFinite_widen]
  simp only [Bool.true_and, Bool.and_eq_true, decide_eq_true_eq, Wide.zero_eq, Wide.real_lt_real,
    Wide.real_mul]

/-- A wide matrix that counts as non-singular is a real one that is regular. -/
theorem exists_regular {A : Matrix3 Wide} (h : A.isNonSingular (real tolerance) = true) :
    ∃ B : Matrix3 ℝ, A = B.widen ∧ B.Regular tolerance := by
  have hfinite : A.isFinite = true := by
    unfold isNonSingular at h
    exact (Bool.and_eq_true_iff.mp h).1
  obtain ⟨B, rfl⟩ := exists_eq_widen hfinite
  exact ⟨B, rfl, (isNonSingular_widen_iff B).mp h⟩

end Matrix3

end Projectivity
