import Projectivity.Homography.Estimator
import Projectivity.Proofs.Fitting.Partition
import Projectivity.Scalar.Double

/-!
# The end of a refit

A refit ends before its rounds are used up as soon as a round is discarded or leaves the
mask as it is.  If estimates depend on their items alone, that is the end for good.  A
discarded round would be discarded again, since the next one would look at the same
items, and a model that was estimated from the items of its own mask would be estimated
from them once more.
-/

set_option autoImplicit false

namespace Projectivity

variable {μ δ α : Type}

/-- The estimates of a family depend on the items alone, and not on the model that is there. -/
def Family.DecidedByItems (family : Family μ δ α) : Prop :=
  ∀ m other items, family.estimate m items = family.estimate other items

/-- The linear estimation of a homography has no starting point. -/
theorem Homography.family_decidedByItems {β : Type} [Scalar β] [Spectral β] (direction : Transfer) :
    (Homography.family direction : Family _ _ β).DecidedByItems := fun _ _ _ => rfl

namespace Fitting

variable [Scalar α] (family : Family μ δ α) (data : List δ) (threshold : Extended α)

/-- A refit of a given number of rounds in which every round changes the mask. -/
inductive AllChange : Nat → μ → List Bool → Prop where
  | zero {m : μ} {mask : List Bool} : AllChange 0 m mask
  | succ {rounds : Nat} {m next : μ} {mask nextMask : List Bool}
      (round : Replaces family data threshold m mask next nextMask) (changed : nextMask ≠ mask)
      (rest : AllChange rounds next nextMask) : AllChange (rounds + 1) m mask

/-- A model with its mask is settled if a further round could only replace them by themselves. -/
def Settled (m : μ) (mask : List Bool) : Prop :=
  ∀ next nextMask, Replaces family data threshold m mask next nextMask → next = m ∧ nextMask = mask

variable {family data threshold} {m : μ} {mask : List Bool}

/-- What is settled does not change in further rounds. -/
theorem Settled.refit (h : Settled family data threshold m mask) (rounds : Nat) :
    refit family data threshold rounds m mask = (m, mask) := by
  cases rounds with
  | zero => rfl
  | succ rounds =>
    rcases refit_cases family data threshold rounds m mask with
      ⟨-, hend⟩ | ⟨next, nextMask, hround, ⟨-, hend⟩ | ⟨hchanged, -⟩⟩
    · exact hend
    · obtain ⟨rfl, -⟩ := h next nextMask hround
      exact hend
    · exact absurd (h next nextMask hround).2 hchanged

/-- A model that is estimated from the items of its own mask is settled with it. -/
theorem Replaces.settled (hitems : family.DecidedByItems) {next : μ}
    (h : Replaces family data threshold m mask next mask) :
    Settled family data threshold next mask := by
  intro other otherMask hround
  have hestimated := hround.estimated
  rw [hitems next m, h.estimated, Option.some.injEq] at hestimated
  subst hestimated
  exact ⟨rfl, hround.supports.mask_eq.trans h.supports.mask_eq.symm⟩

/-- A refit in which not all rounds change the mask ends with a settled pair. -/
theorem settled_refit (hitems : family.DecidedByItems) (rounds : Nat)
    (h : ¬ AllChange family data threshold rounds m mask) :
    Settled family data threshold (refit family data threshold rounds m mask).1
      (refit family data threshold rounds m mask).2 := by
  -- The induction is on the rounds that are left, and a round that changes the mask passes the
  -- hypothesis on to them.
  induction rounds generalizing m mask with
  | zero => exact absurd AllChange.zero h
  | succ rounds ih =>
    rcases refit_cases family data threshold rounds m mask with
      ⟨hdiscarded, hend⟩ | ⟨next, nextMask, hround, ⟨hsame, hend⟩ | ⟨hchanged, hend⟩⟩
    · rw [hend]
      exact fun next nextMask hround => absurd hround (hdiscarded next nextMask)
    · subst hsame
      rw [hend]
      exact hround.settled hitems
    · rw [hend]
      exact ih fun hrest => h (.succ hround hchanged hrest)

/-- A refit whose first round replaces the model ends with a mask that supports the model. -/
theorem Replaces.supports_refit {next : μ} {nextMask : List Bool}
    (h : Replaces family data threshold m mask next nextMask) (rounds : Nat) :
    Supports family data threshold (refit family data threshold (rounds + 1) m mask).1
      (refit family data threshold (rounds + 1) m mask).2 := by
  rcases refit_cases family data threshold rounds m mask with
    ⟨hdiscarded, -⟩ | ⟨other, otherMask, hround, ⟨hsame, hend⟩ | ⟨-, hend⟩⟩
  · exact absurd h (hdiscarded next nextMask)
  · rw [hend]
    exact hsame ▸ hround.supports
  · rw [hend]
    exact hround.supports.refit rounds

/-- A refit returns what it was given, and that only if it has no round or its first round is
discarded, or else a model with the classification by that very model, which marks enough items.
If not all of its rounds change the mask, another refit changes nothing. -/
theorem refit_settles (hitems : family.DecidedByItems) {rounds : Nat} {found : μ × List Bool}
    (hfound : refit family data threshold rounds m mask = found) :
    ((found = (m, mask) ∧
        (rounds = 0 ∨ ∀ next nextMask, ¬ Replaces family data threshold m mask next nextMask)) ∨
      (found.2 = classify family found.1 data threshold ∧ family.minItems ≤ marks found.2)) ∧
    (¬ AllChange family data threshold rounds m mask →
      ∀ more, refit family data threshold more found.1 found.2 = found) := by
  subst hfound
  constructor
  · cases rounds with
    | zero => exact Or.inl ⟨rfl, Or.inl rfl⟩
    | succ rounds =>
      by_cases hround : ∃ next nextMask, Replaces family data threshold m mask next nextMask
      · obtain ⟨next, nextMask, hround⟩ := hround
        have hsupports := hround.supports_refit rounds
        exact Or.inr ⟨hsupports.mask_eq, hsupports.enough⟩
      · rcases refit_cases family data threshold rounds m mask with
          ⟨hdiscarded, hend⟩ | ⟨next, nextMask, hreplaces, -⟩
        · exact Or.inl ⟨hend, Or.inr hdiscarded⟩
        · exact absurd ⟨next, nextMask, hreplaces⟩ hround
  · intro h more
    exact (settled_refit hitems rounds h).refit more

/-- A refit of models that reach one number beyond the largest of their items: the first round adds
a number to the consensus, and the second one keeps it.  What is asked of the family holds of
homographies as well. -/
theorem refit_settles_reaching_two :
    let family : Family Nat Nat Float :=
      ⟨1, fun _ items => items.max?, fun m d => if d ≤ m + 1 then .zero else .infinite⟩
    family.DecidedByItems ∧
      refit family [1, 2, 9] .zero refitRounds 0 [true, false, false] = (2, [true, true, false]) ∧
      ¬ AllChange family [1, 2, 9] .zero refitRounds 0 [true, false, false] ∧
      [true, true, false] = classify family 2 [1, 2, 9] .zero ∧
      (∀ more, refit family [1, 2, 9] .zero more 2 [true, true, false] =
        (2, [true, true, false])) ∧
      ∀ [Spectral Float] (direction : Transfer),
        (Homography.family direction : Family _ _ Float).DecidedByItems := by
  intro family
  have hitems : family.DecidedByItems := fun _ _ _ => rfl
  have hfound : refit family [1, 2, 9] .zero refitRounds 0 [true, false, false] =
      (2, [true, true, false]) := rfl
  have hkeeps : ¬ AllChange family [1, 2, 9] .zero refitRounds 0 [true, false, false] := by
    rintro (_ | ⟨hfirst, -, _ | ⟨hsecond, hchanged, -⟩⟩)
    obtain rfl := Option.some.inj hfirst.estimated
    obtain rfl := hfirst.supports.mask_eq
    obtain rfl := Option.some.inj hsecond.estimated
    exact hchanged hsecond.supports.mask_eq
  obtain ⟨⟨hsame, -⟩ | ⟨hmask, -⟩, hagain⟩ := refit_settles hitems hfound
  · cases hsame
  · exact ⟨hitems, hfound, hkeeps, hmask, hagain hkeeps, Homography.family_decidedByItems⟩

end Fitting

end Projectivity
