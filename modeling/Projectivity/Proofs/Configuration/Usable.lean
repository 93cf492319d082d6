import Projectivity.Configuration.Estimator
import Projectivity.Proofs.Configuration.Reading

/-!
# Whether a configuration that has been read can be used

The ranges of a configuration are checked when it is read, and an estimator is built from
it later.  A quantity that is only bounded below lets the undefined number through, and
some numbers that are in their ranges cannot be converted when the estimator is built.
-/

set_option autoImplicit false

namespace Projectivity

namespace Fitting

/-- Settings of a search for a consensus are read exactly if their numbers can be converted. -/
theorem Ransac.Settings.exists_read_iff {threshold maxIterations : Value} {refits : Bool}
    {x k : Number} (hthreshold : Quantity.threshold.check threshold = .ok x)
    (hmax : Quantity.maxIterations.check maxIterations = .ok k) :
    (∃ s, Ransac.Settings.read threshold maxIterations (.int defaultTries) refits = .ok s) ↔
      ¬ x.IsBeyond ∧ ¬ k.IsNaN ∧ ¬ k.IsInfinite := by
  have htries : Quantity.maxSampleRetries.check (.int defaultTries) = .ok (.int defaultTries) := rfl
  rw [← x.exists_toFloat_iff, ← k.exists_truncate_iff]
  simp only [Ransac.Settings.read, hthreshold, hmax, htries, Result.bind_eq_ok]
  constructor
  · rintro ⟨s, _, ⟨⟩, _, ⟨⟩, _, ⟨⟩, bound, hbound, iterations, hiterations, -⟩
    exact ⟨⟨bound, hbound⟩, iterations, hiterations⟩
  · rintro ⟨⟨bound, hbound⟩, iterations, hiterations⟩
    exact ⟨_, _, rfl, _, rfl, _, rfl, bound, hbound, iterations, hiterations, _, rfl, rfl⟩

/-- Settings of a search for the least median are read from every proportion that is admitted. -/
theorem Lmeds.Settings.exists_read {outliers : Value} {x : Number} (refits : Bool)
    (houtliers : Quantity.outlierProportion.check outliers = .ok x) :
    ∃ s, Lmeds.Settings.read outliers (.float defaultConfidence) (.float defaultMultiplier)
      (.float defaultMinScale) (.int defaultTries) refits = .ok s := by
  have hallows := (Quantity.check_eq_ok.mp houtliers).2
  rw [Quantity.allows, Bool.and_eq_true] at hallows
  have hconvert := Number.not_isBeyond_of_unit hallows.1 (Number.le_of_lt hallows.2)
  obtain ⟨part, hpart⟩ := x.exists_toFloat_iff.mpr hconvert
  have hconfidence : Quantity.fitConfidence.check (.float defaultConfidence) =
      .ok (.real defaultConfidence) := Quantity.check_eq_ok.mpr ⟨rfl, by decide +kernel⟩
  have hmultiplier : Quantity.inlierMultiplier.check (.float defaultMultiplier) =
      .ok (.real defaultMultiplier) := Quantity.check_eq_ok.mpr ⟨rfl, by decide +kernel⟩
  have hscale : Quantity.minScale.check (.float defaultMinScale) =
      .ok (.real defaultMinScale) := Quantity.check_eq_ok.mpr ⟨rfl, by decide +kernel⟩
  simp only [Lmeds.Settings.read, houtliers, hconfidence, hmultiplier, hscale, Result.bind_eq_ok]
  exact ⟨_, _, rfl, _, rfl, _, rfl, _, rfl, part, hpart, _, rfl, _, rfl, _, rfl, _, rfl, rfl⟩

end Fitting

namespace Estimator

variable {σ : Type} {refinement : Refinement.Settings} {sampler : Result σ}

/-- An estimator for a consensus exists exactly if its settings and its seed can be read. -/
theorem exists_withRansac_iff {threshold maxIterations : Value} {stopping : Stopping Float} :
    (∃ e, withRansac threshold maxIterations stopping refinement sampler = .ok e) ↔
      (∃ settings, Fitting.Ransac.Settings.read threshold maxIterations
        (.int Fitting.defaultTries) true = .ok settings) ∧ ∃ s, sampler = .ok s := by
  simp only [withRansac, Result.bind_eq_ok]
  constructor
  · rintro ⟨e, settings, hsettings, s, hs, -⟩
    exact ⟨⟨settings, hsettings⟩, s, hs⟩
  · rintro ⟨⟨settings, hsettings⟩, s, hs⟩
    exact ⟨_, settings, hsettings, s, hs, rfl⟩

/-- An estimator for the least median exists exactly if its seed can be read. -/
theorem exists_withLmeds_iff {outliers : Value} {settings : Fitting.Lmeds.Settings Float}
    (hsettings : Fitting.Lmeds.Settings.read outliers (.float Fitting.Lmeds.defaultConfidence)
      (.float Fitting.Lmeds.defaultMultiplier) (.float Fitting.Lmeds.defaultMinScale)
      (.int Fitting.defaultTries) true = .ok settings) :
    (∃ e, withLmeds outliers refinement sampler = .ok e) ↔ ∃ s, sampler = .ok s := by
  simp only [withLmeds, Result.bind_eq_ok]
  constructor
  · rintro ⟨e, _, -, s, hs, -⟩
    exact ⟨s, hs⟩
  · rintro ⟨s, hs⟩
    exact ⟨_, settings, hsettings, s, hs, rfl⟩

end Estimator

namespace Configuration

variable {σ : Type}

/-- The numbers of a configuration are in their ranges. -/
structure InRange (c : Configuration) : Prop where
  threshold : ∃ x, c.threshold.number? = some x ∧ x.ge 0 = true
  maxIterations : ∃ x, c.maxIterations.number? = some x ∧ x.ge 1 = true
  outlierProportion : ∃ x, c.outlierProportion.number? = some x ∧ x.ge 0 = true ∧ x.lt 1 = true
  refinementMaxIterations : ∃ x, c.refinement.budget.number? = some x ∧ x.ge 1 = true
  refinementTolerance : ∃ x, c.refinement.tolerance.number? = some x ∧ x.gt 0 = true

/-- What a configuration that has been read cannot be used with. -/
inductive Unusable (sampler : Value → Result σ) (c : Configuration) : Prop where
  /-- One of its numbers is the undefined one. -/
  | undefined {e : Quantity × Value} {x : Number} (mem : e ∈ c.toDraft.quantities)
      (number : e.2.number? = some x) (isNaN : x.IsNaN)
  /-- The threshold of a search for consensus is an integer beyond all doubles. -/
  | beyond {x : Number} (method : c.method = .ransac) (number : c.threshold.number? = some x)
      (isBeyond : x.IsBeyond)
  /-- The iterations of a search for consensus have no end. -/
  | endless {x : Number} (method : c.method = .ransac)
      (number : c.maxIterations.number? = some x) (isInfinite : x.IsInfinite)
  /-- The seed is refused. -/
  | seed {cause : Fault} (refused : sampler c.seed = .error cause)

section Accepted

variable {v : Value} {c : Configuration}

/-- A valid configuration admits its quantities. -/
theorem admits_of_validate (h : c.validate = .ok ()) :
    ∀ e ∈ c.toDraft.quantities, e.1.Admits e.2 :=
  (Draft.validate_eq_ok.mp h).1

/-- The numbers of an accepted configuration are in their ranges exactly if none is undefined. -/
theorem inRange_iff (h : c.validate = .ok ()) : c.InRange ↔
    ∀ e ∈ c.toDraft.quantities, ∀ x, e.2.number? = some x → ¬ x.IsNaN := by
  have hadmits := admits_of_validate h
  simp only [Draft.quantities, List.forall_mem_cons, List.not_mem_nil, false_implies,
    implies_true, and_true, toDraft] at hadmits ⊢
  obtain ⟨⟨x, hx, hthreshold⟩, ⟨k, hk, hmax⟩, ⟨y, hy, houtliers⟩, ⟨b, hb, hbudget⟩, t, ht,
    htolerance⟩ := hadmits
  simp only [Quantity.allows, Bool.not_eq_true', Bool.and_eq_true, Number.lt_eq_false_iff,
    Number.le_eq_false_iff] at hthreshold hmax houtliers hbudget htolerance
  constructor
  · intro hrange
    exact ⟨Number.not_isNaN_of_exists hrange.threshold fun _ => Number.not_isNaN_of_ge,
      Number.not_isNaN_of_exists hrange.maxIterations fun _ => Number.not_isNaN_of_ge,
      Number.not_isNaN_of_exists hrange.outlierProportion fun _ h => Number.not_isNaN_of_ge h.1,
      Number.not_isNaN_of_exists hrange.refinementMaxIterations fun _ => Number.not_isNaN_of_ge,
      Number.not_isNaN_of_exists hrange.refinementTolerance
        fun _ h => Number.not_isNaN_of_ge (Number.ge_of_gt h)⟩
  · rintro ⟨hnx, hnk, hny, hnb, hnt⟩
    exact ⟨⟨x, hx, hthreshold.resolve_right (hnx x hx)⟩, ⟨k, hk, hmax.resolve_right (hnk k hk)⟩,
      ⟨y, hy, houtliers⟩, ⟨b, hb, hbudget.resolve_right (hnb b hb)⟩,
      t, ht, htolerance.resolve_right (hnt t ht)⟩

/-- A valid configuration has a stopping rule. -/
theorem rule_of_validate (h : c.validate = .ok ()) :
    ∃ rule, Stopping.Rule.read (.text c.stopping.name) (.record c.parameters) = .ok rule :=
  (Draft.validate_eq_ok.mp h).2

/-- An accepted configuration describes an estimator exactly if its seed is accepted, and if the
threshold and the iterations of a search for consensus can be converted. -/
theorem exists_create_iff (h : c.validate = .ok ()) (sampler : Value → Result σ) :
    (∃ e, c.create sampler .null = .ok e) ↔
      (c.method = .ransac → (∀ x, c.threshold.number? = some x → ¬ x.IsBeyond) ∧
        ∀ k, c.maxIterations.number? = some k → ¬ k.IsNaN ∧ ¬ k.IsInfinite) ∧
      ∃ s, sampler c.seed = .ok s := by
  obtain ⟨rule, hrule⟩ := rule_of_validate h
  have hadmits := admits_of_validate h
  simp only [Draft.quantities, List.forall_mem_cons, toDraft] at hadmits
  obtain ⟨⟨x, hx, hthreshold⟩, ⟨k, hk, hmax⟩, ⟨y, houtliers⟩, -⟩ := hadmits
  simp only [create, h, hrule]
  cases hmethod : c.method with
  | lmeds =>
    obtain ⟨settings, hsettings⟩ :=
      Fitting.Lmeds.Settings.exists_read true (Quantity.check_eq_ok.mpr houtliers)
    refine (Estimator.exists_withLmeds_iff hsettings).trans ?_
    exact ⟨fun hseed => ⟨fun hother => (by cases hother), hseed⟩, And.right⟩
  | ransac =>
    refine Estimator.exists_withRansac_iff.trans ?_
    rw [Fitting.Ransac.Settings.exists_read_iff (Quantity.check_eq_ok.mpr ⟨hx, hthreshold⟩)
      (Quantity.check_eq_ok.mpr ⟨hk, hmax⟩), hx, hk]
    simp

/-- An accepted configuration has its numbers in their ranges and describes an estimator exactly if
nothing makes it unusable. -/
theorem usable_iff (h : ofValue v = .ok c) (sampler : Value → Result σ) :
    (c.InRange ∧ ∃ e, c.create sampler .null = .ok e) ↔ ¬ c.Unusable sampler := by
  have hvalid := validate_of_ofValue h
  rw [inRange_iff hvalid, exists_create_iff hvalid]
  constructor
  · rintro ⟨hdefined, hconvert, s, hseed⟩ hunusable
    cases hunusable with
    | undefined hmem hnumber hnan => exact hdefined _ hmem _ hnumber hnan
    | beyond hmethod hnumber hbeyond => exact (hconvert hmethod).1 _ hnumber hbeyond
    | endless hmethod hnumber hinfinite => exact ((hconvert hmethod).2 _ hnumber).2 hinfinite
    | seed hrefused =>
      rw [hseed] at hrefused
      cases hrefused
  · intro husable
    have hdefined : ∀ e ∈ c.toDraft.quantities, ∀ x, e.2.number? = some x → ¬ x.IsNaN :=
      fun e hmem x hnumber hnan => husable (.undefined hmem hnumber hnan)
    refine ⟨hdefined, fun hmethod => ⟨?_, ?_⟩, ?_⟩
    · exact fun x hnumber hbeyond => husable (.beyond hmethod hnumber hbeyond)
    · intro k hnumber
      refine ⟨hdefined (.maxIterations, c.maxIterations) (by simp [Draft.quantities, toDraft]) k
        hnumber, fun hinfinite => husable (.endless hmethod hnumber hinfinite)⟩
    · cases hseed : sampler c.seed with
      | ok s => exact ⟨s, rfl⟩
      | error cause => exact absurd (.seed hseed) husable

end Accepted

section Threshold

variable {v : Value}

/-- The default configuration with another threshold. -/
def withThreshold (v : Value) : Configuration := { default with threshold := v }

/-- A default configuration with another threshold is valid. -/
theorem validate_withThreshold (h : Quantity.threshold.Admits v) :
    (withThreshold v).validate = .ok () := by
  have hconfidence : Quantity.stopConfidence.check (.float Stopping.defaultConfidence) =
      .ok (.real Stopping.defaultConfidence) := Quantity.check_eq_ok.mpr ⟨rfl, by decide +kernel⟩
  refine Draft.validate_eq_ok.mpr ⟨?_, .adaptive Stopping.defaultConfidence, ?_⟩
  · exact List.forall_mem_cons.mpr ⟨h, (List.forall_mem_cons.mp default_admits).2⟩
  · change Stopping.Rule.ofConfidence (.float Stopping.defaultConfidence) = _
    rw [Stopping.Rule.ofConfidence, hconfidence]
    rfl

/-- A record with a threshold only is read as the default configuration with this threshold. -/
theorem ofValue_withThreshold (h : Quantity.threshold.Admits v) :
    ofValue (.record [(.text "threshold", v)]) = .ok (withThreshold v) :=
  ofValue_eq_ok.mpr ⟨_, rfl, List.forall_mem_singleton.mpr rfl, rfl, validate_withThreshold h⟩

/-- The default configuration with a threshold of nine is usable. -/
theorem usable_with_threshold_nine :
    ofValue (.record [(.text "threshold", .int 9)]) = .ok (withThreshold (.int 9)) ∧
      (withThreshold (.int 9)).InRange ∧
        ∃ e, (withThreshold (.int 9)).create Random.Generator.ofValue .null = .ok e := by
  have hread : ofValue (.record [(.text "threshold", .int 9)]) = .ok (withThreshold (.int 9)) :=
    ofValue_withThreshold ⟨_, rfl, by decide⟩
  have hrange : (withThreshold (.int 9)).InRange := by
    refine ⟨⟨_, rfl, ?_⟩, ⟨_, rfl, ?_⟩, ⟨_, rfl, ?_⟩, ⟨_, rfl, ?_⟩, ⟨_, rfl, ?_⟩⟩ <;>
      decide +kernel
  refine ⟨hread, (usable_iff hread Random.Generator.ofValue).mpr ?_⟩
  intro hunusable
  cases hunusable with
  | undefined hmem hnumber hnan =>
    exact (inRange_iff (validate_of_ofValue hread)).mp hrange _ hmem _ hnumber hnan
  | beyond hmethod hnumber hbeyond =>
    cases hnumber
    change (Decimal.Numeral.float 9 0).isInf = true at hbeyond
    revert hbeyond
    decide +kernel
  | endless hmethod hnumber hinfinite =>
    cases hnumber
    exact hinfinite
  | seed hrefused => cases hrefused

/-- The undefined number is accepted as a threshold, although it is not at least zero. -/
theorem not_inRange_of_undefined_threshold :
    ofValue (.record [(.text "threshold", .float Float.nan)]) =
        .ok (withThreshold (.float Float.nan)) ∧
      ¬ (withThreshold (.float Float.nan)).InRange := by
  refine ⟨ofValue_withThreshold ⟨_, rfl, by decide +kernel⟩, ?_⟩
  rintro ⟨⟨x, hx, hge⟩, -⟩
  cases hx
  revert hge
  decide +kernel

end Threshold

end Configuration

end Projectivity
