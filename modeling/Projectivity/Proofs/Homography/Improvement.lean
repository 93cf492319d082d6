import Mathlib.Data.List.Perm.Basic
import Projectivity.Proofs.Exact.Recovery
import Projectivity.Proofs.Homography.Safety

/-!
# Refinements improve the fit

A refinement adds up the squares of coordinate differences, and a fitter adds up squared
distances.  Where all images exist the two sums are the same.  An image at infinity, whose
residual is infinite, costs at least the square of the penalty.  So a transform whose
residuals add up to less than that is never exchanged for one that maps an inlier to
infinity, and the sum of the residuals does not grow.
-/

set_option autoImplicit false

namespace Projectivity

open Wide (real)

namespace Transfer

/-- The refinement that reduces the residuals of a direction. -/
def refinement : Transfer → Refinement
  | forward => .forward
  | inverse => .inverse
  | symmetric => .symmetric

variable {α : Type} [Scalar α] [Spectral α]

/-- The preimage of a point, which nothing has under a singular transform. -/
def preimage? (H : Matrix3 α) (p : Point α) : Option (Point α) :=
  if H.isNonSingular Matrix3.rankTolerance then
    H.inverse.project? Matrix3.infinityTolerance p
  else none

/-- The error against the first view is that of the preimage. -/
theorem inverseError_eq (H : Matrix3 α) (c : Correspondence α) :
    inverseError H c = squaredError (preimage? H c.destination) c.source := by
  unfold inverseError preimage?
  split <;> rfl

/-- The sum of the residuals of a list of correspondences. -/
def total (direction : Transfer) (H : Matrix3 α) (data : List (Correspondence α)) : Extended α :=
  Extended.sum (data.map (direction.residual H))

/-- The images that a direction measures exist: none of them is at infinity. -/
def Reaches (direction : Transfer) (H : Matrix3 α) (c : Correspondence α) : Prop :=
  match direction with
  | forward => H.project? Matrix3.infinityTolerance c.source ≠ none
  | inverse => preimage? H c.destination ≠ none
  | symmetric => H.project? Matrix3.infinityTolerance c.source ≠ none ∧
      preimage? H c.destination ≠ none

/-- A residual that is not infinite belongs to images that exist. -/
theorem reaches_of_residual_ne {direction : Transfer} {H : Matrix3 α} {c : Correspondence α}
    (h : direction.residual H c ≠ .infinite) : direction.Reaches H c := by
  have himage : ∀ (image : Option (Point α)) (target : Point α),
      squaredError image target ≠ .infinite → image ≠ none := by
    rintro image target herror rfl
    exact herror rfl
  cases direction with
  | forward => exact himage _ _ h
  | inverse =>
    rw [residual, inverseError_eq] at h
    exact himage _ _ h
  | symmetric =>
    rw [residual, inverseError_eq] at h
    refine ⟨himage _ c.destination fun hforward => h ?_, himage _ c.source fun hinverse => h ?_⟩
    · rw [forwardError, hforward]
      rfl
    · rw [hinverse]
      cases forwardError H c <;> rfl

/-- A transform fits correspondences at least as well as another one: none of them is at infinity,
and the sum of the residuals is not larger. -/
structure NoWorse (direction : Transfer) (data : List (Correspondence α))
    (initial refined : Matrix3 α) : Prop where
  reached : ∀ c ∈ data, direction.Reaches refined c
  finite : ∀ c ∈ data, (direction.residual refined c).isFinite = true
  total_le : (direction.total refined data).le (direction.total initial data) = true

/-- The differences of the images that a direction measures. -/
def differences (direction : Transfer) (H : Matrix3 α) (c : Correspondence α) : List α :=
  match direction with
  | forward =>
    ErrorVector.difference c.destination (H.project? Matrix3.infinityTolerance c.source)
  | inverse => ErrorVector.difference c.source (preimage? H c.destination)
  | symmetric =>
    ErrorVector.difference c.destination (H.project? Matrix3.infinityTolerance c.source) ++
      ErrorVector.difference c.source (preimage? H c.destination)

/-- The differences in the source view, with the penalties of a singular transform as those of
images at infinity. -/
theorem inverse_eq_flatMap (H : Matrix3 α) (data : List (Correspondence α)) :
    ErrorVector.inverse H data = data.flatMap (inverse.differences H) := by
  unfold ErrorVector.inverse differences preimage?
  split
  · rfl
  · induction data with
    | nil => rfl
    | cons c rest ih =>
      rw [List.flatMap_cons, ← ih]
      rfl

/-- A refinement reduces the differences of its direction.  The symmetric one lists those in one
view before those in the other. -/
theorem differences_perm (direction : Transfer) (H : Matrix3 α) (data : List (Correspondence α)) :
    (data.flatMap (direction.differences H)).Perm (direction.refinement.vector H data) := by
  cases direction with
  | forward => exact List.Perm.refl _
  | inverse =>
    show List.Perm _ (ErrorVector.inverse H data)
    rw [inverse_eq_flatMap]
  | symmetric =>
    show List.Perm _ (ErrorVector.forward H data ++ ErrorVector.inverse H data)
    rw [inverse_eq_flatMap]
    exact (List.flatMap_append_perm data _ _).symm

end Transfer

namespace Extended

variable {α : Type} [Scalar α]

/-- Nothing that is added to what is infinite makes it finite. -/
theorem foldl_add_infinite (values : List (Extended α)) : values.foldl add infinite = infinite := by
  induction values with
  | nil => rfl
  | cons x rest ih => exact ih

/-- A sum with an infinite value is infinite. -/
theorem sum_eq_infinite {values : List (Extended α)} (h : infinite ∈ values) :
    sum values = infinite := by
  obtain ⟨before, after, rfl⟩ := List.append_of_mem h
  unfold sum
  rw [List.foldl_append, List.foldl_cons]
  cases before.foldl add zero <;> exact foldl_add_infinite after

/-- A sum of zeros is zero. -/
theorem sum_eq_zero {values : List (Extended α)} (hzero : zero.add zero = (zero : Extended α))
    (h : ∀ x ∈ values, x = zero) : sum values = zero := by
  unfold sum
  induction values with
  | nil => rfl
  | cons x rest ih =>
    rw [List.forall_mem_cons] at h
    rw [List.foldl_cons, h.1, hzero]
    exact ih h.2

/-- A sum of real numbers is a real number. -/
theorem isFinite_sum {values : List (Extended Wide)} (h : ∀ x ∈ values, x.isFinite = true) :
    (sum values).isFinite = true := by
  have hadd : ∀ {x y : Extended Wide}, x.isFinite = true → y.isFinite = true →
      (x.add y).isFinite = true := by
    rintro (a | _) (b | _) ha hb
    · obtain ⟨a, rfl⟩ := Wide.exists_eq_real ha
      obtain ⟨b, rfl⟩ := Wide.exists_eq_real hb
      rfl
    all_goals contradiction
  have hfold : ∀ (values : List (Extended Wide)) (s : Extended Wide), s.isFinite = true →
      (∀ x ∈ values, x.isFinite = true) → (values.foldl add s).isFinite = true := by
    intro values
    induction values with
    | nil => exact fun s hs _ => hs
    | cons x rest ih =>
      intro s hs hall
      rw [List.forall_mem_cons] at hall
      exact ih (s.add x) (hadd hs hall.1) hall.2
  exact hfold values zero rfl h

end Extended

namespace ErrorVector

/-- The sum of the squares of real numbers. -/
def squares (l : List ℝ) : ℝ := (l.map fun x => x ^ 2).sum

/-- A vector of differences measures a residual: its squares add up to a finite residual, and to at
least the square of the penalty for an infinite one. -/
inductive Measures : List Wide → Extended Wide → Prop where
  | finite (l : List ℝ) : Measures (l.map real) (.finite (real (squares l)))
  | infinite {l : List ℝ} (penalized : 10 ^ 12 ≤ squares l) : Measures (l.map real) .infinite

/-- What is measured is finite or infinite. -/
theorem Measures.decided {r : List Wide} {x : Extended Wide} (h : Measures r x) :
    x.isFinite = true ∨ x = .infinite := by
  cases h with
  | finite l => exact Or.inl rfl
  | infinite penalized => exact Or.inr rfl

/-- A vector of differences consists of real numbers. -/
theorem Measures.exists_map_real {r : List Wide} {x : Extended Wide} (h : Measures r x) :
    ∃ l : List ℝ, r = l.map real := by
  cases h with
  | finite l => exact ⟨l, rfl⟩
  | @infinite l penalized => exact ⟨l, rfl⟩

/-- The squares of two vectors one after the other are added. -/
theorem squares_append (l k : List ℝ) : squares (l ++ k) = squares l + squares k := by
  unfold squares
  rw [List.map_append, List.sum_append]

/-- A sum of squares is not negative. -/
theorem squares_nonneg (l : List ℝ) : 0 ≤ squares l := by
  apply List.sum_nonneg
  intro y hy
  obtain ⟨x, -, rfl⟩ := List.mem_map.mp hy
  exact sq_nonneg x

/-- The products of real numbers with themselves are their squares. -/
theorem map_mul_self_real (l : List ℝ) :
    (l.map real).map (fun a => a * a) = (l.map fun x => x ^ 2).map real := by
  rw [List.map_map, List.map_map]
  exact List.map_congr_left fun x _ => by simp [pow_two]

/-- The product of a vector of real numbers with itself is the sum of their squares. -/
theorem dot_map_real (l : List ℝ) : Scalar.dot (l.map real) (l.map real) = real (squares l) := by
  unfold Scalar.dot
  rw [List.zipWith_self, map_mul_self_real, Wide.sum_map_real]
  rfl

/-- The squares of a vector that measures a finite value add up to it. -/
theorem Measures.eq_finite {r : List Wide} {x : Extended Wide} (h : Measures r x)
    (hx : x.isFinite = true) : x = .finite (Scalar.dot r r) := by
  cases h with
  | finite l => rw [dot_map_real]
  | infinite penalized => cases hx

/-- A vector for something infinite has at least the square of the penalty. -/
theorem Measures.penalized {r : List Wide} (h : Measures r .infinite) :
    real (10 ^ 12) ≤ Scalar.dot r r := by
  cases h with
  | infinite penalized =>
    rw [dot_map_real, Wide.real_le_real]
    exact penalized

/-- The penalty is a real number. -/
theorem penalty_eq : (penalty : Wide) = real (10 ^ 6) := by
  rw [penalty, Wide.natCast_eq]
  norm_num

/-- The differences between a point and an image measure the squared distance. -/
theorem measures_difference (target : Point Wide) (image : Option (Point Wide)) :
    Measures (difference target image) (Transfer.squaredError image target) := by
  cases image with
  | none =>
    have hpenalties : difference target none = [(10 : ℝ) ^ 6, 10 ^ 6].map real := by
      simp only [difference, penalty_eq, List.map_cons, List.map_nil]
    rw [hpenalties]
    exact .infinite (by norm_num [squares])
  | some p =>
    obtain ⟨px, py⟩ := p
    obtain ⟨tx, ty⟩ := target
    obtain ⟨a, ha⟩ := Wide.exists_eq_real (isFinite_penalize (tx - px))
    obtain ⟨b, hb⟩ := Wide.exists_eq_real (isFinite_penalize (ty - py))
    have hvector : difference ⟨tx, ty⟩ (some ⟨px, py⟩) = [a, b].map real := by
      simp only [difference, ha, hb, List.map_cons, List.map_nil]
    have hsquares : squares [a, b] = a ^ 2 + b ^ 2 := by simp [squares]
    rw [hvector]
    -- A coordinate whose difference is not finite has the penalty in its place.
    have hpenalty : ∀ {x : Wide} {c : ℝ}, penalize x = real c → Scalar.isFinite x = false →
        c = 10 ^ 6 := by
      intro x c hx hinfinite
      rw [penalize, hinfinite, if_neg Bool.false_ne_true, penalty_eq, Wide.real.injEq] at hx
      exact hx.symm
    cases hfinite : Scalar.isFinite (tx - px) && Scalar.isFinite (ty - py) with
    | true =>
      obtain ⟨hx, hy⟩ := Bool.and_eq_true_iff.mp hfinite
      rw [penalize, if_pos hx] at ha
      rw [penalize, if_pos hy] at hb
      rw [Wide.isFinite_sub, Bool.and_eq_true] at hx hy
      obtain ⟨tx, rfl⟩ := Wide.exists_eq_real hx.1
      obtain ⟨px, rfl⟩ := Wide.exists_eq_real hx.2
      obtain ⟨ty, rfl⟩ := Wide.exists_eq_real hy.1
      obtain ⟨py, rfl⟩ := Wide.exists_eq_real hy.2
      rw [Wide.real_sub, Wide.real.injEq] at ha hb
      have herror : Transfer.squaredError (some ⟨real px, real py⟩) ⟨real tx, real ty⟩ =
          .finite (real (squares [a, b])) := by
        rw [hsquares, ← ha, ← hb]
        simp only [Transfer.squaredError, Extended.bounded, Point.squaredLength, Point.sub,
          Scalar.square, Wide.real_sub, Wide.real_mul, Wide.real_add, Wide.isFinite_real, if_true,
          Extended.finite.injEq, Wide.real.injEq]
        ring
      rw [herror]
      exact .finite [a, b]
    | false =>
      have herror : Transfer.squaredError (some ⟨px, py⟩) ⟨tx, ty⟩ = .infinite := by
        have hlength : Scalar.isFinite (Point.squaredLength (Point.sub ⟨px, py⟩ ⟨tx, ty⟩)) =
            false := by
          simp only [Point.squaredLength, Point.sub, Scalar.square, Wide.isFinite_add,
            Wide.isFinite_mul, Wide.isFinite_sub, Bool.and_self] at hfinite ⊢
          rwa [Bool.and_comm (Scalar.isFinite px), Bool.and_comm (Scalar.isFinite py)]
        rw [Transfer.squaredError, Extended.bounded, hlength, if_neg Bool.false_ne_true]
      rw [herror]
      refine .infinite ?_
      rw [hsquares]
      rcases Bool.and_eq_false_iff.mp hfinite with hx | hy
      · rw [hpenalty ha hx]
        nlinarith [sq_nonneg b]
      · rw [hpenalty hb hy]
        nlinarith [sq_nonneg a]

/-- Vectors that measure two residuals measure their sum together. -/
theorem Measures.append {r t : List Wide} {x y : Extended Wide} (hr : Measures r x)
    (ht : Measures t y) : Measures (r ++ t) (x.add y) := by
  cases hr with
  | finite l =>
    cases ht with
    | finite k =>
      have hsum : (Extended.finite (real (squares l))).add (.finite (real (squares k))) =
          .finite (real (squares (l ++ k))) := by
        rw [squares_append]
        rfl
      rw [hsum, ← List.map_append]
      exact .finite _
    | @infinite k hk =>
      rw [← List.map_append]
      exact .infinite (by rw [squares_append]; linarith [squares_nonneg l])
  | @infinite l hl =>
    have hadd : Extended.infinite.add y = .infinite := by cases y <;> rfl
    obtain ⟨k, rfl⟩ := ht.exists_map_real
    rw [hadd, ← List.map_append]
    exact .infinite (by rw [squares_append]; linarith [squares_nonneg k])

/-- The order of the differences does not matter. -/
theorem Measures.perm {r t : List Wide} {x : Extended Wide} (hr : Measures r x)
    (hperm : r.Perm t) : Measures t x := by
  have hreal : ∀ {l : List ℝ}, (l.map real).Perm t →
      ∃ k, t = k.map real ∧ squares l = squares k := by
    intro l hl
    have hback : ∀ a ∈ t, real a.toReal = a := by
      intro a ha
      obtain ⟨x, -, rfl⟩ := List.mem_map.mp (hl.mem_iff.mpr ha)
      rfl
    have hperm : l.Perm (t.map Wide.toReal) := by
      have hmap := hl.map Wide.toReal
      rwa [List.map_map, show Wide.toReal ∘ real = id from rfl, List.map_id] at hmap
    refine ⟨t.map Wide.toReal, ?_, (hperm.map _).sum_eq⟩
    rw [List.map_map]
    exact ((List.map_congr_left hback).trans (List.map_id t)).symm
  cases hr with
  | finite l =>
    obtain ⟨k, rfl, hsquares⟩ := hreal hperm
    rw [hsquares]
    exact .finite k
  | infinite penalized =>
    obtain ⟨k, rfl, hsquares⟩ := hreal hperm
    exact .infinite (hsquares ▸ penalized)

/-- Vectors that measure the residuals of correspondences measure the sum of these residuals.  The
induction is on the correspondences that are left, over every sum reached so far. -/
theorem measures_flatMap {data : List (Correspondence Wide)} {v : Correspondence Wide → List Wide}
    {e : Correspondence Wide → Extended Wide} (h : ∀ c, Measures (v c) (e c)) :
    Measures (data.flatMap v) (Extended.sum (data.map e)) := by
  have hfold : ∀ (data : List (Correspondence Wide)) (r : List Wide) (x : Extended Wide),
      Measures r x → Measures (r ++ data.flatMap v) ((data.map e).foldl Extended.add x) := by
    intro data
    induction data with
    | nil =>
      intro r x hr
      rwa [List.flatMap_nil, List.append_nil]
    | cons c rest ih =>
      intro r x hr
      rw [List.flatMap_cons, ← List.append_assoc]
      exact ih _ _ (hr.append (h c))
  exact hfold data [] .zero (.finite [])

end ErrorVector

namespace Transfer

section Solvers

variable [Spectral Wide] (direction : Transfer) (H : Matrix3 Wide)
  (data : List (Correspondence Wide))

/-- The differences of the images measure the residual. -/
theorem measures_residual (c : Correspondence Wide) :
    ErrorVector.Measures (direction.differences H c) (direction.residual H c) := by
  have hforward : ErrorVector.Measures (forward.differences H c) (forwardError H c) :=
    ErrorVector.measures_difference _ _
  have hinverse : ErrorVector.Measures (inverse.differences H c) (inverseError H c) := by
    rw [inverseError_eq]
    exact ErrorVector.measures_difference _ _
  cases direction with
  | forward => exact hforward
  | inverse => exact hinverse
  | symmetric => exact hforward.append hinverse

/-- What a refinement reduces measures the sum of the residuals. -/
theorem measures_vector :
    ErrorVector.Measures (direction.refinement.vector H data) (direction.total H data) :=
  (ErrorVector.measures_flatMap (direction.measures_residual H)).perm
    (direction.differences_perm H data)

/-- The cost of a refinement and the residuals of its direction agree. -/
structure Agrees : Prop where
  /-- Every residual is a finite number or infinite. -/
  decided : ∀ c ∈ data, (direction.residual H c).isFinite = true ∨
    direction.residual H c = .infinite
  finite : (∀ c ∈ data, (direction.residual H c).isFinite = true) →
    direction.total H data = .finite (direction.refinement.cost H data)
  infinite : (∃ c ∈ data, direction.residual H c = .infinite) →
    real (10 ^ 12) ≤ direction.refinement.cost H data

variable {direction H data} in
/-- A sum of residuals one of which is infinite is infinite. -/
theorem total_eq_infinite (h : ∃ c ∈ data, direction.residual H c = .infinite) :
    direction.total H data = .infinite := by
  obtain ⟨c, hc, hinfinite⟩ := h
  exact Extended.sum_eq_infinite (hinfinite ▸ List.mem_map_of_mem hc)

/-- The cost of the refinement of a direction and its residuals agree. -/
theorem agrees : direction.Agrees H data := by
  have hmeasures := direction.measures_vector H data
  have hdecided : ∀ c, (direction.residual H c).isFinite = true ∨
      direction.residual H c = .infinite := fun c => (direction.measures_residual H c).decided
  refine ⟨fun c _ => hdecided c, ?_, ?_⟩
  · intro hall
    have hfinite : (direction.total H data).isFinite = true := by
      apply Extended.isFinite_sum
      intro x hx
      obtain ⟨c, hc, rfl⟩ := List.mem_map.mp hx
      exact hall c hc
    exact hmeasures.eq_finite hfinite
  · intro hinfinite
    exact (total_eq_infinite hinfinite ▸ hmeasures).penalized

variable {direction data}

/-- A cost that is not above that of a transform with a small sum of residuals belongs to a
transform that is no worse. -/
theorem noWorse_of_cost_le {initial refined : Matrix3 Wide}
    (hsmall : (direction.total initial data).lt (.finite (real (10 ^ 12))) = true)
    (hcost : direction.refinement.cost refined data ≤ direction.refinement.cost initial data) :
    direction.NoWorse data initial refined := by
  -- The residuals of the start are finite, so that its cost is their sum.
  have hinitial : direction.total initial data =
      .finite (direction.refinement.cost initial data) := by
    apply (direction.agrees initial data).finite
    intro c hc
    refine ((direction.agrees initial data).decided c hc).resolve_right fun hinfinite => ?_
    rw [total_eq_infinite ⟨c, hc, hinfinite⟩] at hsmall
    cases hsmall
  rw [hinitial] at hsmall
  have hbelow : ¬ real (10 ^ 12) ≤ direction.refinement.cost refined data := by
    intro hpenalty
    have hlt : direction.refinement.cost initial data < real (10 ^ 12) := of_decide_eq_true hsmall
    obtain ⟨x, hx⟩ := Wide.exists_eq_real (direction.refinement.isFinite_cost initial data)
    obtain ⟨y, hy⟩ := Wide.exists_eq_real (direction.refinement.isFinite_cost refined data)
    rw [hx, Wide.real_lt_real] at hlt
    rw [hx, hy, Wide.real_le_real] at hcost
    rw [hy, Wide.real_le_real] at hpenalty
    linarith
  have hfinite : ∀ c ∈ data, (direction.residual refined c).isFinite = true := by
    intro c hc
    refine ((direction.agrees refined data).decided c hc).resolve_right fun hinfinite => ?_
    exact hbelow ((direction.agrees refined data).infinite ⟨c, hc, hinfinite⟩)
  refine ⟨?_, hfinite, ?_⟩
  · intro c hc
    apply reaches_of_residual_ne
    intro hinfinite
    have hresidual := hfinite c hc
    rw [hinfinite] at hresidual
    cases hresidual
  · rw [hinitial, (direction.agrees refined data).finite hfinite]
    exact decide_eq_true hcost

variable (direction data)

/-- On every transform the cost of a refinement and the residuals of its direction agree.  So the
refinement of a transform with a small sum of residuals returns one that is no worse, whatever the
solver ends at, exactly if the solver does not break it off. -/
theorem refine_noWorse_iff (solver : Refinement.Solver Wide) (initial : Matrix3 Wide) :
    (∀ H, direction.Agrees H data) ∧
      ((direction.total initial data).lt (.finite (real (10 ^ 12))) = true →
        ((∃ outcome, direction.refinement.refine solver initial data = .ok outcome ∧
            direction.NoWorse data initial outcome.matrix) ↔
          ∀ cause, ¬ direction.refinement.BreaksOff solver initial data cause)) := by
  refine ⟨fun H => direction.agrees H data, fun hsmall => ⟨?_, ?_⟩⟩
  · rintro ⟨outcome, hok, -⟩ cause hbroken
    rw [(direction.refinement.refine_error_iff initial data cause).mpr hbroken] at hok
    cases hok
  · intro hwhole
    obtain ⟨outcome, hok, hmatrix⟩ := direction.refinement.exists_refine_eq_ok initial data hwhole
    refine ⟨outcome, hok, noWorse_of_cost_le hsmall ?_⟩
    rcases hmatrix with hsame | himproves
    · rw [hsame]
      exact direction.refinement.cost_le_self initial data
    · exact himproves.cost_le

end Solvers

/-- The identity projects all points to themselves. -/
theorem project?_one (x y : ℝ) : (Matrix3.one : Matrix3 Wide).project? Matrix3.infinityTolerance
    ⟨real x, real y⟩ = some ⟨real x, real y⟩ := by
  have hnorm : (Matrix3.one : Matrix3 Wide).norm = real (Matrix3.one : Matrix3 ℝ).norm :=
    Matrix3.widen_norm Matrix3.one
  have hfinite : ((1 : ℕ) : ℝ) / 10 ^ 12 * (Matrix3.one : Matrix3 ℝ).norm < |1| := by
    have himage := (Matrix3.project?_eq_some_iff.mp
      (Matrix3.project?_dilation (s := 1) (by norm_num) ⟨x, y⟩)).1
    simpa [Matrix3.dilation_one, Matrix3.apply, Matrix3.act, Matrix3.one,
      Matrix3.infinityTolerance] using himage
  have himage : (Matrix3.one : Matrix3 Wide).apply ⟨real x, real y⟩ =
      ⟨real x, real y, real 1⟩ := by
    simp [Matrix3.apply, Matrix3.act, Matrix3.one]
  unfold Matrix3.project?
  simp only [himage, hnorm, Matrix3.infinityTolerance, Wide.decimal_eq, Exact.decimal_eq,
    Wide.real_mul, Wide.abs_real, Wide.real_lt_real, if_pos hfinite]
  simp [Homogeneous.dehomogenize, Wide.real_div]

/-- A point has no error against itself. -/
theorem squaredError_self (x y : ℝ) :
    squaredError (some ⟨real x, real y⟩) ⟨real x, real y⟩ = .zero := by
  simp [squaredError, Extended.bounded, Point.squaredLength, Point.sub, Scalar.square,
    Extended.zero]

/-- A point that the identity is to leave where it is has no error in either view. -/
theorem residual_one [Spectral Wide] [Spectral.WideExact] (x y : ℝ) :
    symmetric.residual Matrix3.one ⟨⟨real x, real y⟩, ⟨real x, real y⟩⟩ = .zero := by
  have hregular : (Matrix3.one : Matrix3 Wide).isNonSingular Matrix3.rankTolerance = true := by
    let spectral : Spectral ℝ := Spectral.chosen
    have hexact : Spectral.Exact := Spectral.chosen_exact
    have hone := Matrix3.isNonSingular_dilation (s := 1) le_rfl (by norm_num)
    exact (Matrix3.isNonSingular_widen_iff Matrix3.one).mpr
      (Matrix3.isNonSingular_iff_regular.mp hone)
  have hinverse : (Matrix3.one : Matrix3 Wide).inverse = Matrix3.one := by
    have hwiden := Matrix3.widen_inverse (A := Matrix3.one) (by simp)
    rwa [Matrix3.inverse_one] at hwiden
  simp only [residual, forwardError, inverseError, if_pos hregular, hinverse, project?_one,
    squaredError_self]
  simp [Extended.zero, Extended.add, Extended.ofScalar, Scalar.isAbove]

/-- The corners of a square stay where they are, and the solver ends at special values. -/
theorem refine_noWorse_of_special_point :
    letI : Spectral Wide := Spectral.chosen.widen
    let solver : Refinement.Solver Wide := fun _ _ => .ok ⟨⟨.above, .below, .undefined, real 0,
      real 1, real 0, .above, real 0, .undefined⟩, false⟩
    (symmetric.total Matrix3.one Refinement.corners).lt (.finite (real (10 ^ 12))) = true ∧
      ∃ outcome, Refinement.symmetric.refine solver Matrix3.one Refinement.corners = .ok outcome ∧
        symmetric.NoWorse Refinement.corners Matrix3.one outcome.matrix := by
  intro solver
  let spectral : Spectral Wide := Spectral.chosen.widen
  have hexact : Spectral.WideExact := Spectral.widen_exact Spectral.chosen_exact
  have htotal : symmetric.total Matrix3.one Refinement.corners = .zero := by
    apply Extended.sum_eq_zero
    · simp [Extended.zero, Extended.add, Extended.ofScalar, Scalar.isAbove]
    · intro r hr
      obtain ⟨c, hc, rfl⟩ := List.mem_map.mp hr
      simp only [Refinement.corners, List.mem_cons, List.not_mem_nil, or_false] at hc
      rcases hc with rfl | rfl | rfl | rfl <;> exact residual_one _ _
  have hsmall : (symmetric.total Matrix3.one Refinement.corners).lt
      (.finite (real (10 ^ 12))) = true := by
    rw [htotal]
    simp [Extended.zero, Extended.lt]
  refine ⟨hsmall, ((refine_noWorse_iff symmetric Refinement.corners solver Matrix3.one).2
    hsmall).mpr ?_⟩
  intro cause hbroken
  obtain ⟨F, -, hrefused⟩ := hbroken.refused
  cases hrefused

/-- A solver that breaks off with an overflow leaves no transform at all, although every residual of
the start is zero. -/
theorem not_refine_noWorse_of_overflow :
    letI : Spectral ℝ := Spectral.chosen
    let initial : Matrix3 ℝ := Matrix3.one.canonicalScale
    (symmetric.total initial square).lt (.finite (10 ^ 12)) = true ∧
      ¬ ∃ outcome, Refinement.symmetric.refine (fun _ _ => .error .overflow) initial square =
        .ok outcome ∧ symmetric.NoWorse square initial outcome.matrix := by
  intro initial
  let spectral : Spectral ℝ := Spectral.chosen
  have hexact : Spectral.Exact := Spectral.chosen_exact
  have hdet : (Matrix3.one : Matrix3 ℝ).det ≠ 0 := by simp
  have hproportional : initial.Proportional Matrix3.one :=
    Matrix3.canonicalScale_proportional hdet
  have hbroken := Estimator.breaksOff_square ⟨hproportional, Matrix3.norm_canonicalScale hdet⟩
  refine ⟨?_, ?_⟩
  · have htotal : symmetric.total initial square = .zero := by
      obtain ⟨k, hk, hscale⟩ := hproportional
      have hregular : initial.isNonSingular Matrix3.rankTolerance = true := by
        rw [hscale]
        exact isNonSingular_scale_one hk
      apply Extended.sum_eq_zero
      · simp [Extended.zero, Extended.add, Extended.ofScalar, Scalar.isAbove]
      · intro r hr
        obtain ⟨c, hc, rfl⟩ := List.mem_map.mp hr
        have hmatches := (noiseless_square.matched c hc).of_proportional hdet ⟨k, hk, hscale⟩
        simp only [residual, forwardError, inverseError, if_pos hregular, hmatches.forward,
          hmatches.inverse]
        simp [squaredError, Extended.bounded, Point.squaredLength, Point.sub, Extended.zero,
          Extended.add, Extended.ofScalar, Scalar.isAbove]
    rw [htotal]
    simp [Extended.zero, Extended.lt]
  · rintro ⟨outcome, hok, -⟩
    rw [(Refinement.refine_error_iff _ _ _ _).mpr hbroken] at hok
    cases hok

end Transfer

end Projectivity
