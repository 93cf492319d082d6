import Mathlib.Data.Nat.Find
import Projectivity.Proofs.Fitting.Draws

/-!
# The iterations of a search

An iteration draws until a sample is not degenerate, and yields the model of that
sample.  If all of its draws are degenerate it yields nothing, and the next iteration
goes on from the model that was there.  A draw that fails breaks the iteration off.
-/

set_option autoImplicit false

namespace Projectivity.Fitting

variable {μ δ α σ : Type} (draw : Sampler σ) (family : Family μ δ α) (data : List δ)

/-- What an iteration yields, and the random state after it. -/
inductive Iteration (tries : Nat) (m : μ) (s : σ) : Option μ → σ → Prop where
  | found {k : Nat} {model : μ} (first : FirstAccepted draw family data m s k model)
      (inTime : k < tries) :
      Iteration tries m s (some model) (drawn draw data.length family.minItems s (k + 1))
  | nothing (rejected : ∀ j < tries, Rejected draw family data m s j) :
      Iteration tries m s none (drawn draw data.length family.minItems s tries)

/-- Iterations that follow each other, with what each of them yields.  The last two arguments are
the model and the random state after them. -/
inductive Iterations (tries : Nat) (m : μ) (s : σ) : List (Option μ) → μ → σ → Prop where
  | start : Iterations tries m s [] m s
  | next {models : List (Option μ)} {last : μ} {t : σ} {outcome : Option μ} {u : σ}
      (before : Iterations tries m s models last t)
      (iteration : Iteration draw family data tries last t outcome u) :
      Iterations tries m s (models ++ [outcome]) (outcome.getD last) u

/-- The draws before a given one are degenerate, and that one fails. -/
structure FirstFailed (m : μ) (s : σ) (k : Nat) (cause : Fault) : Prop where
  rejected : ∀ j < k, Rejected draw family data m s j
  failed : sampleAt draw data family.minItems s k = .error cause

variable {draw family data} {m : μ}

/-- A failing draw comes nearer by as many degenerate draws as have gone by. -/
theorem FirstFailed.later {s : σ} {j k : Nat} {cause : Fault}
    (h : FirstFailed draw family data m s (j + k) cause) :
    FirstFailed draw family data m (drawn draw data.length family.minItems s j) k cause := by
  constructor
  · intro i hi
    unfold Rejected
    rw [sampleAt_drawn]
    exact h.rejected (j + i) (by omega)
  · rw [sampleAt_drawn]
    exact h.failed

/-- An iteration that reaches a failing draw is broken off by it. -/
theorem estimateFromSample_eq_error (tries : Nat) {s : σ} {k : Nat} {cause : Fault}
    (h : FirstFailed draw family data m s k cause) (hk : k < tries) :
    (estimateFromSample family draw data m tries s).1 = .error cause := by
  induction tries generalizing s k with
  | zero => omega
  | succ tries ih =>
    cases k with
    | zero =>
      have hfailed := h.failed
      simp only [sampleAt, drawn] at hfailed
      rw [estimateFromSample]
      rcases hdraw : draw s data.length family.minItems with ⟨outcome, next⟩
      rw [hdraw] at hfailed
      cases outcome with
      | error other =>
        cases hfailed
        rfl
      | ok positions =>
        simp only at hfailed ⊢
        rw [hfailed]
    | succ k =>
      rw [estimateFromSample_of_rejected tries (h.rejected 0 (Nat.succ_pos k))]
      rw [Nat.add_comm k 1] at h
      exact ih h.later (by omega)

/-- An iteration that runs to its end is what the drawing of a sample computes. -/
theorem Iteration.estimateFromSample_eq {tries : Nat} {s t : σ} {outcome : Option μ}
    (h : Iteration draw family data tries m s outcome t) :
    estimateFromSample family draw data m tries s = (.ok outcome, t) := by
  cases h with
  | found first inTime => exact estimateFromSample_eq_some tries first inTime
  | nothing rejected => exact estimateFromSample_eq_none tries rejected

variable (draw family data)

/-- An iteration either runs to its end, or one of its draws fails. -/
theorem estimateFromSample_cases (tries : Nat) (m : μ) (s : σ) :
    (∃ outcome next, Iteration draw family data tries m s outcome next ∧
        estimateFromSample family draw data m tries s = (.ok outcome, next)) ∨
      ∃ k < tries, ∃ cause, FirstFailed draw family data m s k cause ∧
        (estimateFromSample family draw data m tries s).1 = .error cause := by
  classical
  by_cases hall : ∀ j < tries, Rejected draw family data m s j
  · exact Or.inl ⟨none, _, .nothing hall, estimateFromSample_eq_none tries hall⟩
  have hexists : ∃ k, k < tries ∧ ¬ Rejected draw family data m s k := by
    simpa only [not_forall, exists_prop] using hall
  -- The first draw that is not degenerate is accepted or fails.
  obtain ⟨hk, haccepted⟩ := Nat.find_spec hexists
  have hbefore : ∀ j < Nat.find hexists, Rejected draw family data m s j := by
    intro j hj
    have hmin := Nat.find_min hexists hj
    rw [not_and, not_not] at hmin
    exact hmin (Nat.lt_trans hj hk)
  generalize Nat.find hexists = k at hk haccepted hbefore
  cases hsample : sampleAt draw data family.minItems s k with
  | error cause =>
    have hfirst : FirstFailed draw family data m s k cause := ⟨hbefore, hsample⟩
    exact Or.inr ⟨k, hk, cause, hfirst, estimateFromSample_eq_error tries hfirst hk⟩
  | ok sample =>
    cases hmodel : family.estimate m sample with
    | none => exact absurd ⟨sample, hsample, hmodel⟩ haccepted
    | some model =>
      have hfirst : FirstAccepted draw family data m s k model :=
        ⟨hbefore, sample, hsample, hmodel⟩
      exact Or.inl ⟨some model, _, .found hfirst hk, estimateFromSample_eq_some tries hfirst hk⟩

section Numbers

/-- Models and items are numbers, and only equal ones agree.  A sample that holds the number seven
is degenerate. -/
def numbers (α : Type) [Scalar α] : Family Nat Nat α :=
  ⟨1, fun _ sample => sample.head?.filter fun d => d != 7,
    fun m d => if m = d then .zero else .infinite⟩

/-- Samples of one item each, in the order of the items. -/
def inTurn : Sampler Nat := fun k available _ => (.ok [k % available], k + 1)

end Numbers

end Projectivity.Fitting
