import Projectivity.Proofs.Fitting.Draws
import Projectivity.Random.Selection

/-!
# The positions of random samples

A shuffle only changes the order of what it is given, and a bounded number keeps to its
bound after however many rejections.  A sample that is not larger than the data
therefore always exists, and its positions are positions of the data, so that drawing
from data never fails.
-/

set_option autoImplicit false

namespace Projectivity.Random

/-- A shuffle keeps all items.  The induction is on the positions that are left. -/
theorem shuffle_perm (pick : Generator → Nat → Nat × Generator) (positions : List Nat)
    (items : Array Nat) (g : Generator) :
    (shuffle pick positions items g).1.Perm items := by
  have hswap : ∀ (items : Array Nat) (i j : Nat), (items.swapIfInBounds i j).Perm items := by
    intro items i j
    rw [Array.swapIfInBounds_def]
    split
    · split
      · exact Array.swap_perm _ _
      · exact Array.Perm.refl items
    · exact Array.Perm.refl items
  induction positions generalizing items g with
  | nil => exact Array.Perm.refl items
  | cons i rest ih =>
    exact (ih (items.swapIfInBounds i (pick g i).1) (pick g i).2).trans
      (hswap items i (pick g i).1)

/-- The upper word of a product of a word with a range lies in that range. -/
theorem below_lt {range : Nat} (hpos : 0 < range) (remainder fuel : Nat) (g : Generator) :
    (below range remainder fuel g).1 < range := by
  induction fuel generalizing g with
  | zero => exact hpos
  | succ fuel ih =>
    unfold below
    simp only
    split
    · exact ih _
    · rw [Nat.div_lt_iff_lt_mul (Nat.two_pow_pos 32), Nat.mul_comm range]
      exact Nat.mul_lt_mul_of_pos_right (UInt32.toNat_lt _) hpos

/-- A number that is drawn below a bound is at most as large. -/
theorem bounded_le (g : Generator) (top : Nat) : (bounded g top).1 ≤ top := by
  unfold bounded
  split
  · exact Nat.zero_le top
  · exact Nat.le_of_lt_succ (below_lt (Nat.succ_pos top) _ _ g)

/-- Numbers that are drawn one after the other are below the number of all. -/
theorem lt_of_mem_distinct {n size : Nat} (hsize : size ≤ n) (g : Generator) :
    ∀ i ∈ (distinct n size g).1, i < n := by
  unfold distinct
  refine List.foldlRecOn
    (motive := fun out : Array Nat × Generator => ∀ i ∈ out.1, i < n) _ _ ?_ ?_
  · exact fun i hi => absurd hi (Array.not_mem_empty i)
  · intro out hout k hk i hi
    have htop : n - size + k < n := by
      have hlt := List.mem_range.mp hk
      omega
    rcases Array.mem_push.mp hi with hold | hnew
    · exact hout i hold
    · rw [hnew]
      split
      · exact htop
      · exact Nat.lt_of_le_of_lt (bounded_le out.2 _) htop

/-- Every position of a random sample is one of the data. -/
theorem lt_of_mem_choice {n size : Nat} (hsize : size ≤ n) (g : Generator) :
    ∀ i ∈ (choice g n size).1, i < n := by
  unfold choice
  split
  · intro i hi
    have hmem := Array.mem_toList_iff.mp (List.mem_of_mem_drop hi)
    exact Array.mem_range.mp ((shuffle_perm _ _ _ _).mem_iff.mp hmem)
  · intro i hi
    have hmem := (shuffle_perm _ _ _ _).mem_iff.mp (Array.mem_toList_iff.mp hi)
    exact lt_of_mem_distinct hsize g i hmem

/-- A sample that is not larger than the data is always drawn. -/
theorem uniformSampler_serves : Fitting.Serves uniformSampler := by
  intro g n size hsize
  refine ⟨(choice g n size).1, ?_, lt_of_mem_choice hsize g⟩
  unfold uniformSampler sample
  rw [if_neg (Int.not_lt.mpr (Int.ofNat_le.mpr hsize)),
    if_neg (Int.not_lt.mpr (Int.natCast_nonneg size))]
  rfl

end Projectivity.Random
