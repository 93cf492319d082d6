import Projectivity.Proofs.Exact.Iterations
import Projectivity.Proofs.Fitting.Required
import Projectivity.Proofs.Scalar.Graded

/-!
# More inliers require fewer iterations

The required iterations do not become more when the part of inliers becomes larger, in
exact arithmetic and among doubles, where the joins of the edge cases are the places at
which rounding could break the order.
-/

set_option autoImplicit false

namespace Projectivity

namespace Fitting

variable {α : Type} [Scalar α] {confidence ratio w : α} {size k : ℤ}

/-- How many iterations are required for a part of inliers between zero and one, where the size of a
sample has been rounded. -/
inductive Requires (confidence w : α) (size : ℤ) : ℤ → Prop where
  | one (all : 1 ≤ w) : Requires confidence w size 1
  | cap (some : ¬ 1 ≤ w) (few : w ≤ 0 ∨ Scalar.pow w size ≤ probabilityFloor) :
      Requires confidence w size iterationCap
  | sure (some : ¬ 1 ≤ w) (pos : ¬ w ≤ 0) (likely : ¬ Scalar.pow w size ≤ probabilityFloor)
      (nonneg : 0 ≤ Scalar.log1p (-Scalar.pow w size)) : Requires confidence w size 1
  | quotient (some : ¬ 1 ≤ w) (pos : ¬ w ≤ 0) (likely : ¬ Scalar.pow w size ≤ probabilityFloor)
      (neg : ¬ 0 ≤ Scalar.log1p (-Scalar.pow w size)) {q : ℤ}
      (ceil : ceiling (Scalar.log1p (-confidence) / Scalar.log1p (-Scalar.pow w size)) = .ok q) :
      Requires confidence w size (min (max 1 q) iterationCap)

/-- A power that stays within the range of numbers has the rounded exponent. -/
theorem eq_of_probabilityPower {good : α} (h : probabilityPower w size = .ok good) :
    good = Scalar.pow w (Scalar.roundEven (Scalar.ofInt size : α)) := by
  simp only [probabilityPower, Result.bind_eq_ok, scalarOf_eq_ok] at h
  obtain ⟨_, ⟨-, rfl⟩, h⟩ := h
  split_ifs at h
  cases h
  rfl

/-- The cases of the required iterations, one for each way in which they are known. -/
theorem requires_of_requiredIterations (h : requiredIterations confidence ratio size = .ok k) :
    Requires confidence (Scalar.smaller (Scalar.larger ratio 0) 1)
      (Scalar.roundEven (Scalar.ofInt size : α)) k := by
  unfold requiredIterations at h
  split at h
  · cases h
  simp only at h
  generalize Scalar.smaller (Scalar.larger ratio 0) 1 = w at h ⊢
  split_ifs at h with hall hnull
  · cases h
    exact .one hall
  · cases h
    exact .cap hall (Or.inl hnull)
  obtain ⟨good, hgood, h⟩ := Result.bind_eq_ok.mp h
  obtain rfl := eq_of_probabilityPower hgood
  split_ifs at h with hrare hsure
  · cases h
    exact .cap hall (Or.inr hrare)
  · cases h
    exact .sure hall hnull hrare hsure
  · obtain ⟨q, hceil, h⟩ := Result.bind_eq_ok.mp h
    cases h
    exact .quotient hall hnull hrare hsure hceil

/-- At least one iteration is required, and never more than the cap. -/
theorem Requires.bounds (h : Requires confidence w size k) : 1 ≤ k ∧ k ≤ iterationCap := by
  have hcap : (1 : ℤ) ≤ iterationCap := by decide
  cases h <;> omega

/-- A ceiling exists for what is finite only. -/
theorem ceiling_ok {x : α} {q : ℤ} (h : ceiling x = .ok q) :
    Scalar.isFinite x = true ∧ q = Scalar.ceil x := by
  unfold ceiling at h
  split_ifs at h with hfinite
  cases h
  exact ⟨hfinite, rfl⟩

end Fitting

namespace Double

open Fitting
open Float.Model (UnpackedFloat Format)

section Parts

variable {x y p : Float} {size : ℤ}

/-- What is below a power of two is finite. -/
theorem isFinite_of_below {u : UnpackedFloat} {n : ℤ} (h : Below n u) : u.isFinite = true := by
  cases u with
  | zero s => rfl
  | finite s m e hm => rfl
  | _ => exact h.elim

/-- A logarithm of one minus a part is a finite double below zero. -/
theorem exists_log1p_neg_eq (hpos : 0 < x) (hlt : x < 1) :
    ∃ p, log1p (-x) = -p ∧ 0 < p ∧ p.isFinite = true := by
  have hself : x ≤ x := (le_refl_iff x).mpr (isNaN_of_lt hpos).2
  obtain ⟨p, -, hlog, -, hp, -⟩ := exists_log1p_neg_le hpos hlt hpos hlt hself
  refine ⟨p, hlog, hp, ?_⟩
  obtain ⟨m, e, hm, hunpack, hpart⟩ := exists_of_part hpos hlt
  rw [← isFinite_neg, ← hlog]
  exact isFinite_of_below (below_log1p_neg hunpack hpart)

/-- The opposite of a positive scalar is not at least zero. -/
theorem not_zero_le_neg (hp : 0 < p) : ¬ 0 ≤ -p := by
  have hnan := (isNaN_of_lt hp).2
  rw [lt_iff_number rfl hnan, number_zero] at hp
  rw [le_iff_number rfl ((isNaN_neg p).trans hnan), number_neg, number_zero]
  linarith

/-- The power of a part, where it is reckoned with, is one or a part. -/
theorem pow_eq_one_or_part (hsize : 0 < size) (hpos : 0 < x) (hlt : x < 1)
    (hlikely : ¬ pow x size ≤ probabilityFloor) :
    pow x size = 1 ∨ 0 < pow x size ∧ pow x size < 1 := by
  obtain ⟨m, e, hm, hunpack, hpart⟩ := exists_of_part hpos hlt
  refine (pow_eq_one_or_below hunpack hpart hsize).imp_right fun hbelow => ?_
  have hnumber : pow x size ≤ pow x size := le_refl_of_below hbelow
  have hfloor : (probabilityFloor : Float) ≤ probabilityFloor :=
    (le_iff_rank _ _).mpr ⟨_, _, rank_floor, rank_floor, le_rfl⟩
  have habove : probabilityFloor < pow x size :=
    (Scalar.Ordered.lt_iff_not_le hfloor hnumber).mpr hlikely
  obtain ⟨n, f, hn, hgood, hlead, -⟩ := exists_of_floor_lt habove hbelow
  have hnan := (le_refl_iff _).mp hnumber
  rw [zero_lt_iff, hgood]
  refine ⟨trivial, ?_⟩
  rw [lt_iff_number hnan rfl, number_of_unpack hgood, number_one]
  refine (mul_two_zpow_lt Nat.lt_log2_self f).trans_le (zpow_le_one_of_nonpos₀ one_le_two ?_)
  push_cast
  omega

end Parts

section Quotient

/-- The logarithm of zero is below all numbers. -/
theorem log1p_neg_one : log1p (-1) = -infinity := by decide +kernel

/-- The logarithm of one minus a part is not at least zero. -/
theorem not_zero_le_log1p {x : Float} (h : x = 1 ∨ 0 < x ∧ x < 1) : ¬ 0 ≤ log1p (-x) := by
  rcases h with rfl | ⟨hpos, hlt⟩
  · rw [log1p_neg_one]
    exact not_zero_le_neg ((zero_lt_iff infinity).mpr trivial)
  · obtain ⟨p, hlog, hp, -⟩ := exists_log1p_neg_eq hpos hlt
    rw [hlog]
    exact not_zero_le_neg hp

/-- Nothing is left of a logarithm that is divided by the one of zero. -/
theorem ceil_div_log1p_neg_one {p : Float} (hp : 0 < p) (hfinite : p.isFinite = true) :
    ceil (-p / log1p (-1)) = 0 := by
  obtain ⟨m, e, hm, hunpack⟩ := exists_unpack_of_pos hp hfinite
  have hquotient : (-p / log1p (-1)).toModel.unpack = .zero .positive := by
    change UnpackedFloat.unpack Format.binary64 (UnpackedFloat.pack Format.binary64
      (UnpackedFloat.div Format.binary64 (-p).toModel.unpack (log1p (-1)).toModel.unpack)) = _
    have hinfinite : infinity.toModel.unpack = .infinity .positive := rfl
    rw [log1p_neg_one, unpack_neg, unpack_neg, hunpack, hinfinite]
    exact unpack_pack (u := .zero .positive) trivial
  have hquotientfinite : (-p / log1p (-1)).isFinite = true := by
    change (-p / log1p (-1)).toModel.unpack.isFinite = true
    rw [hquotient]
    rfl
  rw [ceil_eq hquotientfinite, number, hquotient]
  exact Int.ceil_zero

variable {confidence w w' : Float} {size k k' : ℤ}

/-- Of two parts with powers that are reckoned with, the larger one has the smaller quotient. -/
theorem ceil_quotient_le (hsize : 0 < size) (hpos : 0 < confidence) (hlt : confidence < 1)
    (hw : 0 < w) (hw1 : w < 1) (hw' : 0 < w') (hw1' : w' < 1) (hww : w ≤ w')
    (hlikely : ¬ pow w size ≤ probabilityFloor) (hlikely' : ¬ pow w' size ≤ probabilityFloor)
    (hfinite : (log1p (-confidence) / log1p (-pow w size)).isFinite = true)
    (hfinite' : (log1p (-confidence) / log1p (-pow w' size)).isFinite = true) :
    max 1 (ceil (log1p (-confidence) / log1p (-pow w' size))) ≤
      max 1 (ceil (log1p (-confidence) / log1p (-pow w size))) := by
  obtain ⟨p, hlog, hp, hpf⟩ := exists_log1p_neg_eq hpos hlt
  rw [hlog] at hfinite hfinite' ⊢
  have hgood := pow_le_pow hsize hw hw1 hw' hw1' hww
  rcases pow_eq_one_or_part hsize hw' hw1' hlikely' with hone' | ⟨hg', hg1'⟩
  · rw [hone', ceil_div_log1p_neg_one hp hpf]
    omega
  rcases pow_eq_one_or_part hsize hw hw1 hlikely with hone | ⟨hg, hg1⟩
  · -- The power of the larger part would be below that of the smaller one.
    rw [hone] at hgood
    exact absurd hgood ((Scalar.Ordered.lt_iff_not_le (Scalar.Ordered.le_refl_right hgood)
      (Scalar.Ordered.le_refl_left hgood)).mp hg1')
  · obtain ⟨a, b, ha, hb, hapos, hab⟩ := exists_log1p_neg_le hg hg1 hg' hg1' hgood
    obtain ⟨b', hb', -, hbf⟩ := exists_log1p_neg_eq hg' hg1'
    rw [ha] at hfinite ⊢
    rw [hb] at hfinite' ⊢
    have hbfinite : b.isFinite = true := by rw [← isFinite_neg, ← hb, hb', isFinite_neg, hbf]
    exact max_le_max_left 1
      (ceil_le_ceil hfinite' hfinite (neg_div_neg_le hp hpf hapos hab hbfinite))

/-- The required iterations among doubles do not become more with a larger part of inliers. -/
theorem requires_le (hsize : 0 < size) (hpos : 0 < confidence) (hlt : confidence < 1)
    (hww : w ≤ w') (h : Requires confidence w size k)
    (h' : Requires confidence w' size k') : k' ≤ k := by
  have hbounds := h.bounds
  have hbounds' := h'.bounds
  have hself : w ≤ w := Scalar.Ordered.le_refl_left hww
  have hself' : w' ≤ w' := Scalar.Ordered.le_refl_right hww
  have hzero : (0 : Float) ≤ 0 := Scalar.Ordered.zero_le_zero
  have hone : (1 : Float) ≤ 1 := (le_iff_rank 1 1).mpr ⟨_, _, rfl, rfl, le_rfl⟩
  have hlt1 : ∀ {x : Float}, x ≤ x → ¬ 1 ≤ x → x < 1 := fun hx hall =>
    (Scalar.Ordered.lt_iff_not_le hx hone).mpr hall
  have hpos0 : ∀ {x : Float}, x ≤ x → ¬ x ≤ 0 → 0 < x := fun hx hnull =>
    (Scalar.Ordered.lt_iff_not_le hzero hx).mpr hnull
  cases h' with
  | one => exact hbounds.1
  | sure => exact hbounds.1
  | cap some' few' =>
    -- Where the larger part is not reckoned with, the smaller one is not either.
    have hfew : ¬ 1 ≤ w → ¬ w ≤ 0 → Scalar.pow w size ≤ probabilityFloor := by
      intro hsome hnull
      have hnull' : ¬ w' ≤ 0 := fun h => hnull (Scalar.Ordered.le_trans hww h)
      exact Scalar.Ordered.le_trans (pow_le_pow hsize (hpos0 hself hnull) (hlt1 hself hsome)
        (hpos0 hself' hnull') (hlt1 hself' some') hww) (few'.resolve_left hnull')
    cases h with
    | one all => exact absurd (Scalar.Ordered.le_trans all hww) some'
    | cap => exact le_rfl
    | sure hsome hnull hlikely => exact absurd (hfew hsome hnull) hlikely
    | quotient hsome hnull hlikely => exact absurd (hfew hsome hnull) hlikely
  | quotient some' pos' likely' neg' ceil' =>
    cases h with
    | one all => exact absurd (Scalar.Ordered.le_trans all hww) some'
    | cap => exact hbounds'.2
    | sure hsome hnull hlikely hnonneg =>
      exact absurd hnonneg (not_zero_le_log1p (pow_eq_one_or_part hsize (hpos0 hself hnull)
        (hlt1 hself hsome) hlikely))
    | quotient hsome hnull hlikely _ hceil =>
      obtain ⟨hfinite, rfl⟩ := ceiling_ok hceil
      obtain ⟨hfinite', rfl⟩ := ceiling_ok ceil'
      exact min_le_min_right _ (ceil_quotient_le hsize hpos hlt (hpos0 hself hnull)
        (hlt1 hself hsome) (hpos0 hself' pos') (hlt1 hself' some') hww hlikely likely' hfinite
        hfinite')

end Quotient

end Double

section Clamp

variable {α : Type} [Scalar α] [Scalar.Ordered α] {a b c : α}

/-- The larger scalar grows with the one that it is chosen from. -/
theorem larger_le_larger (hab : a ≤ b) (hc : c ≤ c) : Scalar.larger a c ≤ Scalar.larger b c := by
  have ha := Scalar.Ordered.le_refl_left hab
  have hb := Scalar.Ordered.le_refl_right hab
  unfold Scalar.larger
  simp only [Scalar.Ordered.lt_iff_not_le ha hc, Scalar.Ordered.lt_iff_not_le hb hc]
  split_ifs with hca hcb hcb
  · exact hab
  · exact absurd (Scalar.Ordered.le_trans hca hab) hcb
  · exact hcb
  · exact hc

/-- The smaller scalar grows with the one that it is chosen from. -/
theorem smaller_le_smaller (hab : a ≤ b) (hc : c ≤ c) :
    Scalar.smaller a c ≤ Scalar.smaller b c := by
  have ha := Scalar.Ordered.le_refl_left hab
  have hb := Scalar.Ordered.le_refl_right hab
  unfold Scalar.smaller
  simp only [Scalar.Ordered.lt_iff_not_le hc ha, Scalar.Ordered.lt_iff_not_le hc hb]
  split_ifs with hac hbc hbc
  · exact hab
  · exact hac
  · exact absurd (Scalar.Ordered.le_trans hab hbc) hac
  · exact hc

end Clamp

/-- A number is not rounded above an integer that it does not exceed. -/
theorem Exact.roundEven_le {x : ℝ} {n : ℕ} (h : x ≤ n) : Exact.roundEven x ≤ n := by
  have hfloor : ⌊x⌋ ≤ (n : ℤ) := Int.floor_le_iff.mpr (by push_cast; linarith)
  unfold Exact.roundEven
  rcases hfloor.eq_or_lt with heq | hlt
  · have hfract : Int.fract x < 1 / 2 := by
      have hsplit := Int.floor_add_fract x
      rw [heq] at hsplit
      push_cast at hsplit
      linarith
    rw [if_pos hfract, heq]
  · split_ifs <;> omega

/-- Scalars over which more inliers do not require more iterations, and over which a share of the
items is not more than all of them unless the items are too many to be told apart. -/
class Stopping.Graded (α : Type) [Scalar α] : Prop extends Stopping.Reckoned α where
  required_le : ∀ {confidence : α} {inliers more items sampleSize : ℕ} {k k' : ℤ},
    0 < sampleSize → 0 < confidence → confidence < 1 → sampleSize ≤ inliers → inliers ≤ more →
    more ≤ items →
    Scalar.isFinite (Scalar.ofInt items : α) = true →
    Fitting.requiredIterations confidence (Scalar.ofInt inliers / Scalar.ofInt items) sampleSize =
      .ok k →
    Fitting.requiredIterations confidence (Scalar.ofInt more / Scalar.ofInt items) sampleSize =
      .ok k' → k' ≤ k
  share_le : ∀ {percentage : α} {items : ℕ}, 0 < percentage → percentage ≤ 1 → 0 < items →
    items ≤ 2 ^ 53 → Scalar.roundEven (percentage * Scalar.ofInt items) ≤ items

/-- More inliers do not require more iterations among doubles. -/
instance : Stopping.Graded Float where
  required_le {confidence inliers more items sampleSize k k'} hsize hpos hlt henough hmore hitems
      hfinite h h' := by
    have hnatural : ∀ n : ℕ, (Scalar.ofInt (n : ℤ) : Float) = Float.ofNat n := fun _ => rfl
    rw [hnatural] at hfinite
    rw [hnatural, hnatural] at h h'
    have hsizefinite : (Float.ofNat sampleSize).isFinite = true :=
      Double.isFinite_ofNat_mono ((henough.trans hmore).trans hitems) hfinite
    have hratio := larger_le_larger
      (Double.ratio_le_ratio (hsize.trans_le henough) hmore hitems hfinite)
      Scalar.Ordered.zero_le_zero
    have hrequires := Fitting.requires_of_requiredIterations h
    have hrequires' := Fitting.requires_of_requiredIterations h'
    rw [hnatural] at hrequires hrequires'
    exact Double.requires_le (Double.roundEven_ofNat hsize hsizefinite).1 hpos hlt
      (smaller_le_smaller hratio ((Double.le_iff_rank 1 1).mpr ⟨_, _, rfl, rfl, le_rfl⟩))
      hrequires hrequires'
  share_le := Double.roundEven_share_le

/-- More inliers do not require more iterations among the real numbers. -/
instance : Stopping.Graded ℝ where
  required_le {_ inliers more items _ _ _} hsize _ hlt _ hmore _ _ h h' := by
    simp only [Exact.ofInt_eq, Int.cast_natCast] at h h'
    have hratio : (inliers : ℝ) / items ≤ more / items :=
      div_le_div_of_nonneg_right (Nat.cast_le.mpr hmore) (Nat.cast_nonneg items)
    exact Fitting.requiredIterations_le hlt le_rfl hratio hsize le_rfl h h'
  share_le {percentage items} _ hle _ _ := by
    rw [Exact.ofInt_eq, Int.cast_natCast]
    exact Exact.roundEven_le (mul_le_of_le_one_left (Nat.cast_nonneg items) hle)

end Projectivity
