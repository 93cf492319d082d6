import Projectivity.Proofs.Fitting.Stopping
import Projectivity.Proofs.Scalar.Logarithm
import Projectivity.Proofs.Scalar.Power
import Projectivity.Proofs.Scalar.Range

/-!
# Required iterations among doubles

An adaptive rule divides two logarithms.  The one of the confidence is not large, and the
one of a sample of inliers is not small unless the rule does without it, so that the
quotient is a finite double and the rule knows how many iterations it requires.
-/

set_option autoImplicit false

namespace Projectivity

/-- Required iterations are known where the probability of a sample of inliers is, and the quotient of
the logarithms is finite, as far as there is a need for them. -/
theorem Fitting.exists_requiredIterations_of {α : Type} [Scalar α] {confidence ratio : α} {size : ℤ}
    (hsize : 0 < size) (h : ∀ w : α, w = Scalar.smaller (Scalar.larger ratio 0) 1 → ¬ 1 ≤ w →
      ¬ w ≤ 0 → ∃ good, probabilityPower w size = .ok good ∧
        (¬ good ≤ probabilityFloor → ¬ 0 ≤ Scalar.log1p (-good) →
          Scalar.isFinite (Scalar.log1p (-confidence) / Scalar.log1p (-good)) = true)) :
    ∃ k, requiredIterations confidence ratio size = .ok k := by
  unfold requiredIterations
  rw [if_neg hsize.not_ge]
  simp only
  split
  · exact ⟨_, rfl⟩
  split
  · exact ⟨_, rfl⟩
  rename_i hless hmore
  obtain ⟨good, hgood, hfinite⟩ := h _ rfl hless hmore
  rw [hgood]
  simp only [bind, Except.bind]
  split
  · exact ⟨_, rfl⟩
  split
  · exact ⟨_, rfl⟩
  rename_i hfloor hdecay
  rw [ceiling, if_pos (hfinite hfloor hdecay)]
  exact ⟨_, rfl⟩

namespace Double

open Float.Model (UnpackedFloat Format)
open Float.Model.UnpackedFloat

/-- The rank of the floor of probabilities. -/
theorem rank_floor : rank (Fitting.probabilityFloor : Float).toModel.unpack =
    some (toLex (1, toLex (-1049, 6032057205060441))) := by decide +kernel

/-- A double above the floor that is not above one has its leading digit within reach of it. -/
theorem exists_of_floor_lt {x : Float} (hfloor : Fitting.probabilityFloor < x)
    (hbelow : Below 0 x.toModel.unpack) :
    ∃ m e hm, x.toModel.unpack = .finite .positive m e hm ∧ e + m.log2 < 0 ∧
      -997 ≤ e + m.log2 := by
  have hcanonical : Canonical x.toModel.unpack := canonical_unpack x.toModel.toBits.toBitVec
  obtain ⟨y, z, hy, hz, hyz⟩ := (lt_iff_rank _ _).mp hfloor
  rw [rank_floor] at hy
  cases hy
  generalize x.toModel.unpack = u at hcanonical hbelow hz ⊢
  rcases u with _ | _ | _ | ⟨_ | _, m, e, hm⟩
  case finite.positive =>
    refine ⟨m, e, hm, rfl, hbelow, ?_⟩
    cases hz
    have hlead : -1074 < e → 52 ≤ m.log2 := fun he =>
      (Nat.le_log2 hm.ne').mpr (not_lt.mp fun h => by have := hcanonical.2.2.2 h; omega)
    simp only [Prod.Lex.toLex_lt_toLex, lt_self_iff_false, true_and, false_or] at hyz
    omega
  case finite.negative =>
    cases hz
    simp [Prod.Lex.toLex_lt_toLex] at hyz
  case zero =>
    cases hz
    simp [Prod.Lex.toLex_lt_toLex] at hyz
  all_goals exact hbelow.elim

/-- The logarithm of the confidence is not large. -/
theorem below_failure {confidence : Float} (hpos : 0 < confidence) (hlt : confidence < 1) :
    Below 10 (log1p (-confidence)).toModel.unpack := by
  obtain ⟨m, e, hm, hunpack, hpart⟩ := exists_of_part hpos hlt
  exact below_log1p_neg hunpack hpart

/-- The logarithm for a sample of inliers is not small, unless it is not reckoned with. -/
theorem atLeast_decay {good : Float} (hfloor : Fitting.probabilityFloor < good)
    (h : good = 1 ∨ Below 0 good.toModel.unpack) :
    0 ≤ log1p (-good) ∨ AtLeast (-997) (log1p (-good)).toModel.unpack := by
  rcases h with rfl | hbelow
  · exact Or.inr trivial
  · obtain ⟨m, e, hm, hunpack, hpart, hlead⟩ := exists_of_floor_lt hfloor hbelow
    exact atLeast_log1p_neg hunpack hpart hlead (by norm_num)

section Exponents

variable {n : ℕ}

/-- A positive number of items that is a finite double is rounded to a positive integer, and a small
one to itself. -/
theorem roundEven_ofNat (hn : 0 < n) (hfinite : (Float.ofNat n).isFinite = true) :
    0 < roundEven (Float.ofNat n) ∧ (n ≤ 2 ^ 53 → roundEven (Float.ofNat n) = n) := by
  have hnearest := isNearest_roundEven hfinite
  refine ⟨?_, ?_⟩
  · have hone : (1 : ℚ) ≤ number (Float.ofNat n) := by
      refine (isRounded_ofNat n).le_number (by exact_mod_cast rounds_natCast (n := 1) (by norm_num))
        ?_ (by exact_mod_cast hn)
      exact_mod_cast (natCast_lt_overflow (n := 1) (by norm_num)).le
    have hmono := (isNearest_intCast 1).mono hnearest (by exact_mod_cast hone)
    omega
  · intro hsmall
    have hnumber := (isRounded_ofNat n).number_eq (rounds_natCast hsmall)
      (natCast_lt_overflow hsmall)
    rw [hnumber] at hnearest
    have hself : IsNearest (n : ℚ) n := by exact_mod_cast isNearest_intCast n
    exact le_antisymm (hnearest.mono hself le_rfl) (hself.mono hnearest le_rfl)

/-- Fewer items are a finite double if more are. -/
theorem isFinite_ofNat_mono {m : ℕ} (hmn : m ≤ n) (hfinite : (Float.ofNat n).isFinite = true) :
    (Float.ofNat m).isFinite = true := by
  rw [(isRounded_ofNat n).isFinite_iff (Nat.cast_nonneg n)] at hfinite
  rw [(isRounded_ofNat m).isFinite_iff (Nat.cast_nonneg m)]
  exact lt_of_le_of_lt (Nat.cast_le.mpr hmn) hfinite

/-- The power of a part is finite, and known if the exponent is a finite double. -/
theorem probabilityPower_of_part {w : Float} (hpos : 0 < w) (hlt : w < 1) (hn : 0 < n)
    (hfinite : (Float.ofNat n).isFinite = true) :
    Fitting.probabilityPower w n = .ok (pow w (roundEven (Float.ofNat n))) := by
  obtain ⟨m, e, hm, hunpack, hpart⟩ := exists_of_part hpos hlt
  have hrounded := (roundEven_ofNat hn hfinite).1
  have hle : number w ≤ 1 := by
    have hone := (lt_iff_number (isNaN_of_lt hlt).1 rfl).mp hlt
    rw [number_one] at hone
    exact hone.le
  have hpower : Scalar.isFinite (Scalar.pow w (roundEven (Float.ofNat n))) = true :=
    (pow_bounds hunpack hle hrounded).1
  have hexponent : (Fitting.scalarOf n : Result Float) = .ok (Float.ofNat n) :=
    Fitting.scalarOf_eq_ok.mpr ⟨hfinite, rfl⟩
  unfold Fitting.probabilityPower
  rw [hexponent]
  simp only [bind, Except.bind]
  rw [if_neg (by omega), if_neg]
  · rfl
  · rw [show Scalar.roundEven (Float.ofNat n) = roundEven (Float.ofNat n) from rfl, hpower]
    simp

end Exponents

/-- Every double that is not negative is a part that the required iterations are known for, if the
confidence is between zero and one and the size of a sample is a finite double. -/
theorem exists_requiredIterations {confidence ratio : Float} {size : ℕ} (hsize : 0 < size)
    (hfinite : (Float.ofNat size).isFinite = true) (hpos : 0 < confidence) (hlt : confidence < 1)
    (hratio : 0 ≤ ratio) : ∃ k, Fitting.requiredIterations confidence ratio size = .ok k := by
  have hone : (1 : Float) ≤ 1 := (le_iff_rank 1 1).mpr ⟨_, _, rfl, rfl, le_rfl⟩
  have hzero : (0 : Float) ≤ 0 := Scalar.Ordered.zero_le_zero
  have hself : ratio ≤ ratio := Scalar.Ordered.le_refl_right hratio
  refine Fitting.exists_requiredIterations_of (Int.natCast_pos.mpr hsize)
    fun w hw hless hmore => ?_
  have hnumber : w ≤ w := by
    rw [hw]
    unfold Scalar.smaller Scalar.larger
    split
    · exact hone
    · split
      · exact hzero
      · exact hself
  have hwpos := (Scalar.Ordered.lt_iff_not_le hzero hnumber).mpr hmore
  have hwlt := (Scalar.Ordered.lt_iff_not_le hnumber hone).mpr hless
  refine ⟨_, probabilityPower_of_part hwpos hwlt hsize hfinite, fun hfloor hdecay => ?_⟩
  obtain ⟨m, e, hm, hunpack, hpart⟩ := exists_of_part hwpos hwlt
  have hgood := pow_eq_one_or_below hunpack hpart (roundEven_ofNat hsize hfinite).1
  have habove : Fitting.probabilityFloor < pow w (roundEven (Float.ofNat size)) := by
    refine (Scalar.Ordered.lt_iff_not_le ?_ ?_).mpr hfloor
    · exact (le_iff_rank _ _).mpr ⟨_, _, rank_floor, rank_floor, le_rfl⟩
    · rcases hgood with heq | hbelow
      · rw [heq]
        exact hone
      · exact le_refl_of_below hbelow
  exact isFinite_div (below_failure hpos hlt) ((atLeast_decay habove hgood).resolve_left hdecay)
    (by norm_num)

/-- The required iterations are known among doubles. -/
instance : Stopping.Reckoned Float where
  exists_required {confidence inliers items sampleSize} hsize hpos hlt henough hmost hfinite := by
    have hnatural : ∀ n : ℕ, (Scalar.ofInt (n : ℤ) : Float) = Float.ofNat n := fun _ => rfl
    have hitems : (Float.ofNat items).isFinite = true := hfinite
    have hinliers : (Float.ofNat inliers).isFinite = true := isFinite_ofNat_mono hmost hitems
    rw [Fitting.iterationsFor_eq (by omega) hitems hinliers, hnatural, hnatural]
    exact exists_requiredIterations hsize (isFinite_ofNat_mono henough hinliers) hpos hlt
      (ratio_nonneg (by omega) (by omega) hitems)

end Double

end Projectivity
