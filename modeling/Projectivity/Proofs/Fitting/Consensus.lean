import Projectivity.Proofs.Fitting.Ransac

/-!
# What a successful fit reports

A search for consensus that succeeds leaves a model behind, and reports the items that
agree with that very model.  The report is exact: it neither loses nor repeats an item,
keeps the order of the items, and its counts are those of the lists that it names.
-/

set_option autoImplicit false

namespace Projectivity.Fitting.Ransac

variable {μ δ α τ σ : Type} [Scalar α] [Summation α] [Stopping.Policy τ]

/-- What a report on items says about the state of the fitter that gives it. -/
structure Reports (family : Family μ δ α) (settings : Settings α) (data : List δ)
    (state : State μ δ α τ σ) (summary : Summary δ α) : Prop where
  success : summary.success = true
  inliers_eq : summary.inliers =
    data.filter fun d => (family.residual state.model d).le settings.threshold
  outliers_eq : summary.outliers =
    data.filter fun d => !(family.residual state.model d).le settings.threshold
  /-- Together the two lists hold every item as often as it was given. -/
  complete : (summary.inliers ++ summary.outliers).Perm data
  /-- Equal items are never in both lists. -/
  disjoint : ∀ d ∈ summary.inliers, d ∉ summary.outliers
  enough : family.minItems ≤ summary.inliers.length
  accepted : Stopping.Policy.accepts state.stopping summary.inliers.length = .ok true
  score_eq : summary.score = .count summary.inliers.length
  threshold_eq : summary.threshold = settings.threshold
  begun : 1 ≤ summary.iterations
  bounded : summary.iterations ≤ settings.maxIterations

variable (family : Family μ δ α) (draw : Sampler σ) (settings : Settings α)
variable (state : State μ δ α τ σ) (data : List δ)

/-- A fit that succeeds reports the partition of the items by the model that it leaves behind,
for every policy, every source of samples and with or without refit. -/
theorem fit_reports_consensus (h : (fit family draw settings state data).answer = .ok true) :
    ∃ summary, (fit family draw settings state data).state.summary = some summary ∧
      Reports family settings data (fit family draw settings state data).state summary := by
  rcases fit_cases family draw settings state data with
    ⟨_, hfit⟩ | ⟨cause, s, _, _, hfit⟩ | ⟨s, _, hrun, hfit⟩
  · rw [hfit] at h
    cases h
  · rw [hfit] at h
    cases h
  rw [hfit] at h ⊢
  rcases conclude_cases family settings state data s with
    ⟨inliers, hend⟩ | ⟨best, cause, _, _, hend⟩ | ⟨best, hbest, henough, hacc, hend⟩
  · rw [hend] at h
    cases h
  · rw [hend] at h
    cases h
  have hsound := search_sound family draw settings state data hrun
  have hsupports := settle_supports family settings data (hsound.candidate best hbest) henough
  have hcount := hsupports.marks_eq
  rw [hend]
  refine ⟨_, rfl, ?_⟩
  simp only [State.accepted, hsupports.partition_eq]
  refine ⟨rfl, rfl, rfl, List.filter_append_perm _ _, fun d hd => not_mem_filter_not hd, ?_, ?_,
    ?_, rfl, ?_, ?_⟩
  · exact hcount ▸ hsupports.enough
  · exact hcount ▸ hacc
  · exact hcount ▸ rfl
  · exact hsound.begun (by rw [hbest]; exact Option.some_ne_none best)
  · exact search_iterations_le family draw settings state data hrun

/-- A fit to three numbers, two of which are equal and agree with each other. -/
theorem fit_reports_consensus_of_equal_items :
    let family : Family Nat Nat Float :=
      ⟨1, fun _ sample => sample.head?, fun m d => if m = d then .zero else .infinite⟩
    let draw : Sampler Nat := fun k available _ => (.ok [k % available], k + 1)
    let settings : Settings Float := ⟨.zero, 5, 2, true⟩
    let state : State Nat Nat Float (Stopping Float) Nat := ⟨9, .ofRule (.count 2), 1, none⟩
    (fit family draw settings state [4, 5, 4]).answer = .ok true ∧
      ∃ summary, (fit family draw settings state [4, 5, 4]).state.summary = some summary ∧
        Reports family settings [4, 5, 4] (fit family draw settings state [4, 5, 4]).state
          summary := by
  intro family draw settings state
  have hsuccess : (fit family draw settings state [4, 5, 4]).answer = .ok true := rfl
  exact ⟨hsuccess, fit_reports_consensus family draw settings state [4, 5, 4] hsuccess⟩

end Projectivity.Fitting.Ransac
