import Projectivity.Configuration.File
import Projectivity.Proofs.Configuration.Reading
import Projectivity.Yaml.Document

/-!
# How invalid configurations are reported

What is documented for a configuration that cannot be read is a bad value.  A fault that
is found by a check of its own is one.  The checks compare, join and convert what they are
given without looking at its type, and what fails there is a fault of another sort.
-/

set_option autoImplicit false

namespace Projectivity

section Steps

variable {β γ : Type} {x : Result β} {f : β → Result γ}

/-- A step is refused for a bad value, if at all. -/
def Result.Documented (x : Result β) : Prop := ∀ cause, x = .error cause → cause.kind = .badValue

/-- What is not refused is documented. -/
theorem Result.documented_ok (b : β) : Result.Documented (.ok b) := by
  rintro _ ⟨⟩

/-- A refusal is documented exactly if it is for a bad value. -/
theorem Result.documented_error {cause : Fault} :
    Result.Documented (.error cause : Result β) ↔ cause.kind = .badValue := by
  constructor
  · exact fun h => h cause rfl
  · rintro h _ ⟨⟩
    exact h

/-- A sequence of two steps is documented exactly if each of them is that is taken. -/
theorem Result.documented_bind : Result.Documented (x >>= f) ↔
    Result.Documented x ∧ ∀ a, x = .ok a → Result.Documented (f a) := by
  cases x with
  | error cause =>
    constructor
    · intro h
      exact ⟨fun other hother => h other (by rw [hother]; rfl), fun a ha => by cases ha⟩
    · rintro ⟨h, -⟩
      exact fun other hother => h other (by cases hother; rfl)
  | ok a =>
    constructor
    · intro h
      refine ⟨Result.documented_ok a, ?_⟩
      rintro _ ⟨⟩
      exact h
    · rintro ⟨-, h⟩
      exact h a rfl

/-- A sequence of steps is documented exactly if each of them is that all before it lead to. -/
theorem Result.documented_forM {l : List β} {f : β → Result Unit} : Result.Documented (l.forM f) ↔
    ∀ before b after, l = before ++ b :: after → (∀ e ∈ before, f e = .ok ()) →
      Result.Documented (f b) := by
  induction l with
  | nil => simp [Result.documented_ok, pure, Except.pure]
  | cons c l ih =>
    change Result.Documented (f c >>= fun _ => l.forM f) ↔ _
    rw [Result.documented_bind, ih]
    constructor
    · rintro ⟨hc, hl⟩ before b after hsplit hbefore
      cases before with
      | nil =>
        cases hsplit
        exact hc
      | cons e before =>
        cases hsplit
        obtain ⟨he, hrest⟩ := List.forall_mem_cons.mp hbefore
        exact hl () he before b after rfl hrest
    · intro h
      refine ⟨h [] c l rfl (by simp), ?_⟩
      rintro ⟨⟩ hc before b after rfl hbefore
      exact h (c :: before) b after rfl (List.forall_mem_cons.mpr ⟨hc, hbefore⟩)

end Steps

/-- The check of a quantity is documented exactly for what can be compared with numbers. -/
theorem Quantity.documented_check {q : Quantity} {v : Value} :
    Result.Documented (q.check v) ↔ v.number? ≠ none := by
  unfold Quantity.check Value.number
  cases v.number? with
  | none =>
    rw [Result.documented_bind, Result.documented_error]
    simp [Fault.kind]
  | some x =>
    refine iff_of_true ?_ (Option.some_ne_none x)
    change Result.Documented (if q.allows x then .ok x else .error (.outOfRange q v))
    split
    · exact Result.documented_ok x
    · exact Result.documented_error.mpr rfl

/-- Nothing but what is infinite is refused as a number beyond its range. -/
theorem Number.documented_truncate (x : Number) :
    Result.Documented x.truncate ↔ ¬ x.IsInfinite := by
  cases x with
  | int n => exact iff_of_true (Result.documented_ok n) id
  | real x =>
    have hnone := Decimal.Dyadic.ofFloat?_eq_none_iff x
    simp only [Number.truncate, Number.IsInfinite]
    cases hfraction : Decimal.Dyadic.ofFloat? x with
    | some d =>
      refine iff_of_true (Result.documented_ok _) fun hinf => ?_
      rw [hnone.mpr (Or.inr hinf)] at hfraction
      cases hfraction
    | none =>
      rw [Result.documented_error]
      by_cases hnan : x.isNaN = true
      · rw [if_pos hnan, Decimal.Dyadic.isInf_of_isNaN hnan]
        exact iff_of_true rfl Bool.false_ne_true
      · rw [if_neg hnan]
        exact iff_of_false (by decide) (not_not.mpr ((hnone.mp hfraction).resolve_left hnan))

/-- A number below the largest doubles is converted. -/
theorem Number.documented_toFloat {x : Number} (h : ¬ x.IsBeyond) :
    Result.Documented x.toFloat := by
  obtain ⟨y, hy⟩ := x.exists_toFloat_iff.mpr h
  rw [hy]
  exact Result.documented_ok y

namespace Stopping

/-- The parameter that a kind of rules takes. -/
def Kind.parameter? : Kind → Option String
  | .bestFit => none
  | .count => some "limit"
  | .share => some "percentage"
  | .adaptive => some "confidence"

/-- The name of a kind of rules names it. -/
theorem Kind.ofValue_name (kind : Kind) (subject : String) :
    Kind.ofValue subject (.text kind.name) = .ok kind := by
  cases kind <;> rfl

/-- Parameters of a stopping rule that are refused with another fault than a bad value. -/
inductive Kind.Misread (kind : Kind) (parameters : List (Value × Value)) : Prop where
  /-- A key cannot be the name of a parameter. -/
  | key {e : Value × Value} (mem : e ∈ parameters) (refused : isParameterName e.1 = false)
  /-- The parameter that the rule takes is not a number. -/
  | type {name : String} {v : Value} (takes : kind.parameter? = some name)
      (given : Value.field? parameters name = some v) (notNumber : v.number? = none)
  /-- The number of inliers is infinite. -/
  | endless {v : Value} {x : Number} (counts : kind = .count)
      (given : Value.field? parameters "limit" = some v) (number : v.number? = some x)
      (infinite : x.IsInfinite) (positive : x.lt 1 = false)

/-- Parameters are not misread if what the rule takes can be compared, and a limit is not infinite.
-/
theorem Kind.not_misread_iff {kind : Kind} {parameters : List (Value × Value)}
    (hkeys : ∀ e ∈ parameters, isParameterName e.1 = true) : ¬ kind.Misread parameters ↔
      (∀ name, kind.parameter? = some name → ∀ v, Value.field? parameters name = some v →
        v.number? ≠ none) ∧
      (kind = .count → ∀ v, Value.field? parameters "limit" = some v →
        ∀ x, v.number? = some x → x.lt 1 = false → ¬ x.IsInfinite) := by
  constructor
  · intro h
    exact ⟨fun name htakes v hgiven hnumber => h (.type htakes hgiven hnumber),
      fun hcounts v hgiven x hnumber hpositive hinfinite =>
        h (.endless hcounts hgiven hnumber hinfinite hpositive)⟩
  · rintro ⟨htype, hendless⟩ h
    cases h with
    | key hmem hrefused =>
      rw [hkeys _ hmem] at hrefused
      cases hrefused
    | type htakes hgiven hnumber => exact htype _ htakes _ hgiven hnumber
    | endless hcounts hgiven hnumber hinfinite hpositive =>
      exact hendless hcounts _ hgiven _ hnumber hpositive hinfinite

namespace Rule

variable {v : Value}

/-- A limit that can be compared is documented unless it is infinite. -/
theorem documented_ofLimit : Result.Documented (ofLimit v) ↔ v.number? ≠ none ∧
    ∀ x, v.number? = some x → x.lt 1 = false → ¬ x.IsInfinite := by
  have hallows : ∀ x : Number, Quantity.limit.allows x = true ↔ x.lt 1 = false :=
    fun x => by rw [Quantity.allows, Bool.not_eq_true']
  have htruncate : ∀ x : Number, Result.Documented
      (x.truncate >>= fun limit => (.ok (.count limit) : Result (Rule Float))) ↔
        ¬ x.IsInfinite := by
    intro x
    rw [Result.documented_bind, Number.documented_truncate]
    exact and_iff_left fun limit _ => Result.documented_ok _
  change Result.Documented (Quantity.limit.check v >>= fun x => x.truncate >>= fun limit =>
    (.ok (.count limit) : Result (Rule Float))) ↔ _
  rw [Result.documented_bind, Quantity.documented_check]
  simp only [Quantity.check_eq_ok, htruncate, hallows, and_imp]

/-- A part or a probability can be converted as soon as it is in its range. -/
theorem documented_convert {q : Quantity} {build : Float → Rule Float}
    (hunit : ∀ x, q.allows x = true → ¬ x.IsBeyond) : Result.Documented
      (q.check v >>= fun x => x.toFloat >>= fun y => (.ok (build y) : Result (Rule Float))) ↔
    v.number? ≠ none := by
  rw [Result.documented_bind, Quantity.documented_check]
  refine and_iff_left fun x hx => ?_
  rw [Result.documented_bind]
  exact ⟨Number.documented_toFloat (hunit x (Quantity.check_eq_ok.mp hx).2),
    fun y _ => Result.documented_ok _⟩

/-- A percentage is documented exactly if it can be compared with numbers. -/
theorem documented_ofPercentage : Result.Documented (ofPercentage v) ↔ v.number? ≠ none := by
  refine documented_convert fun x hallows => ?_
  rw [Quantity.allows, Bool.and_eq_true] at hallows
  exact Number.not_isBeyond_of_unit (Number.ge_of_gt hallows.1) hallows.2

/-- A confidence is documented exactly if it can be compared with numbers. -/
theorem documented_ofConfidence : Result.Documented (ofConfidence v) ↔ v.number? ≠ none := by
  refine documented_convert fun x hallows => ?_
  rw [Quantity.allows, Bool.and_eq_true] at hallows
  exact Number.not_isBeyond_of_unit (Number.ge_of_gt hallows.1) (Number.le_of_lt hallows.2)

/-- The reading of parameters under known names is documented exactly if they are not misread. -/
theorem documented_ofParameters {kind : Kind} {parameters : List (Value × Value)}
    (hkeys : ∀ e ∈ parameters, isParameterName e.1 = true) :
    Result.Documented (ofParameters kind parameters) ↔ ¬ kind.Misread parameters := by
  rw [Kind.not_misread_iff hkeys]
  cases kind with
  | bestFit => simp [ofParameters, Kind.parameter?, Result.documented_ok]
  | count =>
    cases hlimit : Value.field? parameters "limit" with
    | none =>
      simp [ofParameters, Kind.parameter?, hlimit, Result.documented_error, Fault.kind]
    | some v => simp [ofParameters, Kind.parameter?, hlimit, documented_ofLimit]
  | share =>
    cases hpercentage : Value.field? parameters "percentage" with
    | none =>
      simp [ofParameters, Kind.parameter?, hpercentage, Result.documented_error, Fault.kind]
    | some v => simp [ofParameters, Kind.parameter?, hpercentage, documented_ofPercentage]
  | adaptive =>
    cases hconfidence : Value.field? parameters "confidence" with
    | none =>
      simp [ofParameters, Kind.parameter?, hconfidence, documented_ofConfidence, Value.number?]
    | some v => simp [ofParameters, Kind.parameter?, hconfidence, documented_ofConfidence]

/-- The reading of a stopping rule is documented exactly if its parameters are not misread. -/
theorem documented_read {kind : Kind} {parameters : List (Value × Value)} :
    Result.Documented (Rule.read (.text kind.name) (.record parameters)) ↔
      ¬ kind.Misread parameters := by
  unfold Rule.read
  simp only [Kind.ofValue_name]
  split
  · rename_i hkeys
    rw [List.all_eq_true] at hkeys
    exact documented_ofParameters hkeys
  · rename_i hkeys
    rw [Result.documented_error]
    refine iff_of_false (by decide) (not_not.mpr ?_)
    simp only [List.all_eq_true, not_forall, Bool.not_eq_true] at hkeys
    obtain ⟨e, hmem, hrefused⟩ := hkeys
    exact .key hmem hrefused

end Rule

end Stopping

namespace Configuration

/-- Settings that are refused with another fault than a bad value. -/
inductive Misread : Value → Prop where
  /-- A key is not a text. -/
  | key {given : List (Value × Value)} {e : Value × Value} (mem : e ∈ given)
      (notText : ∀ s, e.1 ≠ .text s) : Misread (.record given)
  /-- The first number that its quantity does not admit is no number at all. -/
  | number {given : List (Value × Value)} {c : Configuration}
      {before after : List (Quantity × Value)} {e : Quantity × Value}
      (known : ∀ e ∈ given, Draft.isName e.1 = true)
      (resolved : ofDraft (Draft.ofEntries given) = .ok c)
      (split : c.toDraft.quantities = before ++ e :: after)
      (admitted : ∀ e ∈ before, e.1.Admits e.2) (notNumber : e.2.number? = none) :
      Misread (.record given)
  /-- The parameters of the stopping rule are. -/
  | parameters {given : List (Value × Value)} {c : Configuration}
      (known : ∀ e ∈ given, Draft.isName e.1 = true)
      (resolved : ofDraft (Draft.ofEntries given) = .ok c)
      (admitted : ∀ e ∈ c.toDraft.quantities, e.1.Admits e.2)
      (misread : c.stopping.Misread c.parameters) : Misread (.record given)

/-- A choice that is not offered is a bad value. -/
theorem documented_choose {β : Type} {subject : String} {choices : List β} {name : β → String}
    {v : Value} : Result.Documented (choose subject choices name v) := by
  unfold choose
  simp only
  split
  · exact Result.documented_ok _
  · exact Result.documented_error.mpr rfl

/-- Whatever is chosen in a draft is documented. -/
theorem documented_ofDraft (d : Draft) : Result.Documented (ofDraft d) := by
  have hparameters : Result.Documented (parametersOf d.parameters) := by
    cases d.parameters with
    | null => exact Result.documented_ok _
    | record entries => exact Result.documented_ok _
    | _ => exact Result.documented_error.mpr rfl
  simp only [ofDraft, Result.documented_bind, documented_choose, hparameters, true_and]
  exact fun _ _ _ _ _ _ _ _ => Result.documented_ok _

/-- The keys of a record are documented exactly if all of them are texts. -/
theorem documented_mapM_keyText {keys : List Value} :
    Result.Documented (keys.mapM keyText) ↔ ∀ k ∈ keys, ∃ s, k = .text s := by
  induction keys with
  | nil => simp [Result.documented_ok, pure, Except.pure]
  | cons k rest ih =>
    rw [List.mapM_cons, List.forall_mem_cons, ← ih, Result.documented_bind]
    cases k with
    | text s =>
      simp only [keyText, Except.ok.injEq, forall_eq', Result.documented_bind]
      exact ⟨fun h => ⟨⟨s, rfl⟩, h.2.1⟩,
        fun h => ⟨Result.documented_ok s, h.2, fun _ _ => Result.documented_ok _⟩⟩
    | _ =>
      refine iff_of_false (fun h => ?_) fun h => ?_
      · exact absurd (Result.documented_error.mp h.1) (by decide)
      · obtain ⟨⟨s, hs⟩, -⟩ := h
        cases hs

/-- The check of the keys is documented exactly if all of them are texts. -/
theorem documented_checkKeys {given : List (Value × Value)} :
    Result.Documented (checkKeys given) ↔ ∀ e ∈ given, ∃ s, e.1 = .text s := by
  have htexts : (∀ k ∈ (given.map Prod.fst).filter fun k => !Draft.isName k, ∃ s, k = .text s) ↔
      ∀ e ∈ given, ∃ s, e.1 = .text s := by
    simp only [List.mem_filter, List.mem_map, Bool.not_eq_true']
    constructor
    · intro h e hmem
      by_cases hname : Draft.isName e.1 = true
      · cases hkey : e.1 with
        | text s => exact ⟨s, rfl⟩
        | _ =>
          rw [hkey] at hname
          cases hname
      · exact h e.1 ⟨⟨e, hmem, rfl⟩, Bool.not_eq_true _ ▸ hname⟩
    · rintro h k ⟨⟨e, hmem, rfl⟩, -⟩
      exact h e hmem
  rw [← htexts]
  unfold checkKeys
  simp only
  split
  · rename_i hempty
    rw [List.isEmpty_iff.mp hempty]
    exact iff_of_true (Result.documented_ok ()) (by simp)
  · rw [Result.documented_bind, documented_mapM_keyText]
    exact and_iff_left fun names _ => Result.documented_error.mpr rfl

/-- A validation is documented if all quantities that are reached can be compared, and the
parameters are not misread if it gets to them. -/
theorem documented_validate {c : Configuration} : Result.Documented c.validate ↔
    (∀ before e after, c.toDraft.quantities = before ++ e :: after →
      (∀ e ∈ before, e.1.Admits e.2) → e.2.number? ≠ none) ∧
    ((∀ e ∈ c.toDraft.quantities, e.1.Admits e.2) → ¬ c.stopping.Misread c.parameters) := by
  have hcheck : ∀ e : Quantity × Value, Result.Documented (e.1.check e.2 >>= fun _ => .ok ()) ↔
      e.2.number? ≠ none := by
    intro e
    rw [Result.documented_bind, Quantity.documented_check]
    exact and_iff_left fun x _ => Result.documented_ok _
  have hpass : ∀ e : Quantity × Value,
      (e.1.check e.2 >>= fun _ => (.ok () : Result Unit)) = .ok () ↔ e.1.Admits e.2 := by
    intro e
    simp only [Result.bind_eq_ok, Quantity.check_eq_ok, and_true, Quantity.Admits]
  have hread : Result.Documented (Stopping.Rule.read c.toDraft.stopping c.toDraft.parameters >>=
      fun _ => (.ok () : Result Unit)) ↔ ¬ c.stopping.Misread c.parameters := by
    rw [Result.documented_bind, ← Stopping.Rule.documented_read]
    exact and_iff_left fun rule _ => Result.documented_ok _
  rw [validate, Draft.validate_eq, Result.documented_bind, Result.documented_forM, hread]
  simp only [hcheck, hpass, Result.forM_eq_ok, forall_const]

/-- What a configuration is read from is refused with another fault than a bad value exactly if it
is misread. -/
theorem documented_ofValue (v : Value) : Result.Documented (ofValue v) ↔ ¬ Misread v := by
  cases v with
  | record given =>
    simp only [ofValue, Result.documented_bind, documented_checkKeys, documented_ofDraft,
      documented_validate, true_and]
    constructor
    · rintro ⟨htexts, hrest⟩ hmisread
      cases hmisread with
      | key hmem hkey =>
        obtain ⟨s, hs⟩ := htexts _ hmem
        exact hkey s hs
      | number hknown hresolved hsplit hadmitted hnumber =>
        obtain ⟨⟨hnumbers, -⟩, -⟩ := hrest () (checkKeys_eq_ok.mpr hknown) _ hresolved
        exact hnumbers _ _ _ hsplit hadmitted hnumber
      | parameters hknown hresolved hadmitted hparameters =>
        obtain ⟨⟨-, hrule⟩, -⟩ := hrest () (checkKeys_eq_ok.mpr hknown) _ hresolved
        exact hrule hadmitted hparameters
    · intro hread
      refine ⟨fun e hmem => ?_, fun _ hkeys c hresolved => ⟨⟨?_, ?_⟩, fun _ _ => ?_⟩⟩
      · by_contra hkey
        exact hread (.key hmem (not_exists.mp hkey))
      · exact fun before e after hsplit hadmitted hnumber =>
          hread (.number (checkKeys_eq_ok.mp hkeys) hresolved hsplit hadmitted hnumber)
      · exact fun hadmitted hparameters =>
          hread (.parameters (checkKeys_eq_ok.mp hkeys) hresolved hadmitted hparameters)
      · exact Result.documented_ok c
  | _ =>
    refine iff_of_true (Result.documented_error.mpr rfl) fun h => ?_
    cases h

/-- Documents, of which there is none in a file that is not well formed, that are refused with
another fault than a bad value. -/
inductive MisreadDocument : Option Value → Prop where
  /-- The section for this library is. -/
  | settings {entries : List (Value × Value)} {v : Value}
      (found : Value.field? entries Fault.sectionName = some v) (misread : Misread v) :
      MisreadDocument (some (.record entries))
  /-- The name of the section is an item of a list. -/
  | item {items : List Value} (mem : items.any (Value.same (.text Fault.sectionName)) = true) :
      MisreadDocument (some (.list items))
  /-- The name of the section occurs in a text. -/
  | words {s : String} (occurs : occursIn Fault.sectionName.toList s.toList = true) :
      MisreadDocument (some (.text s))
  /-- The document is a truth value or a number other than zero. -/
  | single {v : Value} (nonzero : v.isEmpty = false) (partless : v.parts? = none) :
      MisreadDocument (some v)

/-- Nothing that is empty is misread. -/
theorem MisreadDocument.not_isEmpty {v : Value} (h : MisreadDocument (some v)) :
    v.isEmpty = false := by
  cases h with
  | @settings entries v hfound _ =>
    cases entries with
    | nil => cases hfound
    | cons e rest => rfl
  | @item items hmem =>
    cases items with
    | nil => cases hmem
    | cons v rest => rfl
  | @words s hoccurs =>
    cases hempty : s.isEmpty with
    | false => exact hempty
    | true =>
      rw [String.isEmpty_iff.mp hempty] at hoccurs
      exact absurd hoccurs (by decide)
  | single hnonzero => exact hnonzero

/-- A section that is missing is a bad value. -/
theorem documented_missingSection (path : String) :
    Result.Documented (.error (.missingSection path) : Result Configuration) :=
  Result.documented_error.mpr rfl

/-- A value of a wrong type is not a bad value. -/
theorem not_documented_wrongType : ¬ Result.Documented (.error .wrongType : Result Configuration) :=
  fun h => absurd (Result.documented_error.mp h) (by decide)

/-- A document is refused with another fault than a bad value exactly if it is misread. -/
theorem documented_ofDocument (path : String) (document? : Option Value) :
    Result.Documented (ofDocument path document?) ↔ ¬ MisreadDocument document? := by
  cases document? with
  | none =>
    refine iff_of_true (Result.documented_error.mpr rfl) fun h => ?_
    cases h
  | some document =>
    unfold ofDocument
    simp only
    by_cases hempty : document.isEmpty = true
    · rw [if_pos hempty]
      refine iff_of_true (documented_missingSection path) fun h => ?_
      rw [h.not_isEmpty] at hempty
      cases hempty
    rw [if_neg hempty]
    have hnonzero := Bool.not_eq_true _ ▸ hempty
    cases document with
    | record entries =>
      cases hfield : Value.field? entries Fault.sectionName with
      | none =>
        simp only [hfield]
        refine iff_of_true (documented_missingSection path) fun h => ?_
        cases h with
        | settings hfound =>
          rw [hfield] at hfound
          cases hfound
        | single _ hpartless => cases hpartless
      | some v =>
        simp only [hfield]
        rw [documented_ofValue]
        refine not_congr ⟨fun h => .settings hfield h, fun h => ?_⟩
        cases h with
        | settings hfound hmisread =>
          rw [hfield, Option.some.injEq] at hfound
          exact hfound ▸ hmisread
        | single _ hpartless => cases hpartless
    | list items =>
      by_cases hmem : items.any (Value.same (.text Fault.sectionName)) = true
      · simp only [hmem, if_true]
        exact iff_of_false not_documented_wrongType (not_not.mpr (.item hmem))
      · simp only [hmem]
        refine iff_of_true (documented_missingSection path) fun h => ?_
        cases h with
        | item hitem => exact hmem hitem
        | single _ hpartless => cases hpartless
    | text s =>
      by_cases hoccurs : occursIn Fault.sectionName.toList s.toList = true
      · simp only [hoccurs, if_true]
        exact iff_of_false not_documented_wrongType (not_not.mpr (.words hoccurs))
      · simp only [hoccurs]
        refine iff_of_true (documented_missingSection path) fun h => ?_
        cases h with
        | words hwords => exact hoccurs hwords
        | single _ hpartless => cases hpartless
    | _ => exact iff_of_false not_documented_wrongType (not_not.mpr (.single hnonzero rfl))

/-- A reading gives a valid configuration, or it is refused for a bad value. -/
def Reported (x : Result Configuration) : Prop :=
  (∃ c, x = .ok c ∧ c.validate = .ok ()) ∨ ∃ cause, x = .error cause ∧ cause.kind = .badValue

/-- A reading that gives valid configurations only is reported exactly if it is documented. -/
theorem reported_iff {x : Result Configuration}
    (hvalid : ∀ c, x = .ok c → c.validate = .ok ()) : Reported x ↔ Result.Documented x := by
  cases x with
  | ok c => exact iff_of_true (Or.inl ⟨c, rfl, hvalid c rfl⟩) (Result.documented_ok c)
  | error cause =>
    rw [Result.documented_error]
    constructor
    · rintro (⟨c, ⟨⟩, -⟩ | ⟨_, ⟨⟩, h⟩)
      exact h
    · exact fun h => Or.inr ⟨cause, rfl, h⟩

/-- What is read from a document is valid. -/
theorem validate_of_ofDocument {path : String} {document? : Option Value} {c : Configuration}
    (h : ofDocument path document? = .ok c) : c.validate = .ok () := by
  unfold ofDocument at h
  split at h
  · cases h
  split at h
  · cases h
  split at h
  · split at h
    · exact validate_of_ofValue h
    · cases h
  · split at h <;> cases h
  · split at h <;> cases h
  · cases h

/-- Invalid settings and files are reported as documented exactly if they are not misread, whatever
document a reader finds in a file. -/
theorem reported_iff_not_misread (v : Value) (path : String) (document? : Option Value) :
    (Reported (ofValue v) ↔ ¬ Misread v) ∧
      (Reported (ofDocument path document?) ↔ ¬ MisreadDocument document?) ∧
      ∀ (reader : String → Option Value) (content : String),
        Reported (load reader path (some content)) ↔ ¬ MisreadDocument (reader content) := by
  have hdocument : ∀ document?,
      Reported (ofDocument path document?) ↔ ¬ MisreadDocument document? := fun document? =>
    (reported_iff fun _ => validate_of_ofDocument).trans (documented_ofDocument path document?)
  refine ⟨?_, hdocument document?, fun reader content => hdocument (reader content)⟩
  exact (reported_iff fun _ => validate_of_ofValue).trans (documented_ofValue v)

/-- A tolerance that is written without a dot is read as a text, and refused for its type. -/
theorem not_reported_of_exponent_without_dot : ¬ Reported (load Yaml.read? "estimator.yaml"
    (some "homography_estimation:\n  refinement_tolerance: 1e-10\n")) := by
  have hkind : (match load Yaml.read? "estimator.yaml"
      (some "homography_estimation:\n  refinement_tolerance: 1e-10\n") with
    | .ok _ => Fault.Kind.badValue
    | .error cause => cause.kind) = .wrongType := by
    decide +kernel
  rintro (⟨c, hread, -⟩ | ⟨cause, hread, hbad⟩)
  · rw [hread] at hkind
    cases hkind
  · rw [hread] at hkind
    cases hbad.symm.trans hkind

end Configuration

end Projectivity
