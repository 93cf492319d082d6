import Projectivity.Fitting.Stopping.Kind
import Projectivity.Proofs.Scalar.Graded
import Projectivity.Proofs.Value.Number

/-!
# Parameters of stopping rules

A parameter is checked as it was given and converted afterwards.  The conversion does not take it
out of the range for which it was checked, so every rule that is made has a parameter in its range.
-/

set_option autoImplicit false

namespace Projectivity

namespace Number

variable {x : Float} {j k n : ℤ}

/-- A finite double compares with an integer as its number does. -/
theorem compare?_real (h : x.isFinite = true) (k : ℤ) :
    (real x).compare? k = some (compare (Double.number x) k) := by
  obtain ⟨d, hd⟩ := Double.exists_fraction h
  have hpos : (0 : ℚ) < d.denominator := by exact_mod_cast d.denominator_pos
  rw [compare?, hd, Double.number_eq_fraction hd]
  refine congrArg some ?_
  rcases lt_trichotomy d.signedNumerator (k * d.denominator) with hlt | heq | hgt
  · rw [compare_lt_iff_lt.mpr hlt, eq_comm, compare_lt_iff_lt, div_lt_iff₀ hpos]
    exact_mod_cast hlt
  · rw [compare_eq_iff_eq.mpr heq, eq_comm, compare_eq_iff_eq, div_eq_iff hpos.ne']
    exact_mod_cast heq
  · rw [compare_gt_iff_gt.mpr hgt, eq_comm, compare_gt_iff_gt]
    refine (lt_div_iff₀ hpos).mpr ?_
    exact_mod_cast hgt

/-- A double between two integers is finite. -/
theorem isFinite_of_gt_of_le (hgt : (real x).gt j = true) (hle : (real x).le k = true) :
    x.isFinite = true := by
  cases hfraction : Decimal.Dyadic.ofFloat? x with
  | none =>
    simp only [gt, le, lt, compare?, hfraction] at hgt hle
    split_ifs at hgt hle <;> simp_all
  | some d =>
    rw [Decimal.Dyadic.ofFloat?_eq] at hfraction
    change x.toModel.unpack.isFinite = true
    generalize x.toModel.unpack = u at hfraction ⊢
    rcases u with _ | _ | _ | _ <;> first | rfl | cases hfraction

/-- A finite number that is compared as positive is positive. -/
theorem zero_lt_of_gt (hfinite : x.isFinite = true) (h : (real x).gt 0 = true) : 0 < x := by
  rw [gt, compare?_real hfinite, beq_iff_eq, Option.some.injEq, compare_gt_iff_gt] at h
  rw [Double.lt_iff_number rfl (Double.isNaN_of_isFinite hfinite), Double.number_zero]
  exact_mod_cast h

/-- A finite number that is compared as less than one is less than one. -/
theorem lt_one_of_lt (hfinite : x.isFinite = true) (h : (real x).lt 1 = true) : x < 1 := by
  rw [lt, compare?_real hfinite, beq_iff_eq, Option.some.injEq, compare_lt_iff_lt] at h
  rw [Double.lt_iff_number (Double.isNaN_of_isFinite hfinite) rfl, Double.number_one]
  exact_mod_cast h

/-- A finite number that is compared as at most one is at most one. -/
theorem le_one_of_le (hfinite : x.isFinite = true) (h : (real x).le 1 = true) : x ≤ 1 := by
  rw [le, lt, compare?_real hfinite, Bool.or_eq_true, beq_iff_eq, beq_iff_eq, Option.some.injEq,
    Option.some.injEq, compare_lt_iff_lt, compare_eq_iff_eq, ← le_iff_lt_or_eq] at h
  rw [Double.le_iff_number (Double.isNaN_of_isFinite hfinite) rfl, Double.number_one]
  exact_mod_cast h

/-- What remains of a number that is not below one without its fraction. -/
theorem one_le_truncate {x : Number} (hone : x.lt 1 = false) (h : x.truncate = .ok n) : 1 ≤ n := by
  cases x with
  | int m =>
    cases h
    simpa [lt, compare?, compare_lt_iff_lt] using hone
  | real x =>
    cases hfraction : Decimal.Dyadic.ofFloat? x with
    | none => simp [truncate, hfraction] at h
    | some d =>
      have hpos := d.denominator_pos
      simp only [lt, compare?, hfraction, Decimal.Dyadic.signedNumerator, one_mul,
        beq_eq_false_iff_ne, ne_eq, Option.some.injEq, compare_lt_iff_lt, not_lt] at hone
      simp only [truncate, hfraction, Decimal.Dyadic.truncate, Except.ok.injEq] at h
      split_ifs at hone h with hnegative
      · omega
      · rw [← h]
        exact_mod_cast Nat.div_pos (by exact_mod_cast hone) hpos

end Number

namespace Stopping

/-- The range of the parameter that a rule is made with. -/
def Rule.Valid {α : Type} [Scalar α] : Rule α → Prop
  | .bestFit => True
  | .count limit => 1 ≤ limit
  | .share percentage => 0 < percentage ∧ percentage ≤ 1
  | .adaptive confidence => 0 < confidence ∧ confidence < 1

namespace Rule

variable {v : Value} {rule : Rule Float}

/-- A limit that has been read is valid. -/
theorem valid_ofLimit (h : ofLimit v = .ok rule) : rule.Valid := by
  obtain ⟨x, hcheck, h⟩ := Result.bind_eq_ok.mp h
  obtain ⟨limit, htruncate, h⟩ := Result.bind_eq_ok.mp h
  obtain ⟨-, hallows⟩ := Quantity.check_eq_ok.mp hcheck
  cases h
  exact Number.one_le_truncate (by simpa [Quantity.allows] using hallows) htruncate

/-- A percentage that has been read is valid. -/
theorem valid_ofPercentage (h : ofPercentage v = .ok rule) : rule.Valid := by
  obtain ⟨x, hcheck, h⟩ := Result.bind_eq_ok.mp h
  obtain ⟨percentage, hfloat, h⟩ := Result.bind_eq_ok.mp h
  obtain ⟨-, hallows⟩ := Quantity.check_eq_ok.mp hcheck
  rw [Quantity.allows, Bool.and_eq_true] at hallows
  cases h
  cases x with
  | int n =>
    have hone : n = 1 := by
      simp only [Number.gt, Number.le, Number.lt, Number.compare?, Bool.or_eq_true, beq_iff_eq,
        Option.some.injEq, compare_gt_iff_gt, compare_eq_iff_eq, compare_lt_iff_lt] at hallows
      omega
    subst hone
    cases hfloat
    change 0 < _ ∧ _ ≤ _
    decide +kernel
  | real x =>
    cases hfloat
    have hfinite := Number.isFinite_of_gt_of_le hallows.1 hallows.2
    exact ⟨Number.zero_lt_of_gt hfinite hallows.1, Number.le_one_of_le hfinite hallows.2⟩

/-- A confidence that has been read is valid. -/
theorem valid_ofConfidence (h : ofConfidence v = .ok rule) : rule.Valid := by
  obtain ⟨x, hcheck, h⟩ := Result.bind_eq_ok.mp h
  obtain ⟨confidence, hfloat, h⟩ := Result.bind_eq_ok.mp h
  obtain ⟨-, hallows⟩ := Quantity.check_eq_ok.mp hcheck
  rw [Quantity.allows, Bool.and_eq_true] at hallows
  cases h
  cases x with
  | int n =>
    simp only [Number.gt, Number.lt, Number.compare?, beq_iff_eq, Option.some.injEq,
      compare_gt_iff_gt, compare_lt_iff_lt] at hallows
    omega
  | real x =>
    cases hfloat
    have hfinite := Number.isFinite_of_gt_of_le hallows.1 (Number.le_of_lt hallows.2)
    exact ⟨Number.zero_lt_of_gt hfinite hallows.1, Number.lt_one_of_lt hfinite hallows.2⟩

/-- Every rule that is made has a parameter in its range. -/
theorem valid_ofParameters {kind : Kind} {parameters : List (Value × Value)}
    (h : ofParameters kind parameters = .ok rule) : rule.Valid := by
  unfold ofParameters at h
  cases kind with
  | bestFit =>
    cases h
    trivial
  | count =>
    cases hlimit : Value.field? parameters "limit" with
    | none => simp [hlimit] at h
    | some v => exact valid_ofLimit (by simpa [hlimit] using h)
  | share =>
    cases hpercentage : Value.field? parameters "percentage" with
    | none => simp [hpercentage] at h
    | some v => exact valid_ofPercentage (by simpa [hpercentage] using h)
  | adaptive => exact valid_ofConfidence h

end Rule

end Stopping

end Projectivity
