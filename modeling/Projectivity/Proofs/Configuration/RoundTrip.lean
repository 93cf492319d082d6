import Projectivity.Configuration.File
import Projectivity.Proofs.Configuration.Reading
import Projectivity.Proofs.Value.Equality
import Projectivity.Yaml.Document
import Projectivity.Yaml.Render

/-!
# Configurations that are written and read again

A configuration that has been read is written as a record of all its settings under their
names.  Reading that record resolves the same names, finds the same numbers and checks the
same ranges, and therefore gives the configuration again.  If the record is as plain as
what the configuration was read from, then the two are also equal as trees of data.
-/

set_option autoImplicit false

namespace Projectivity.Configuration

namespace Draft

/-- Reading the entries of a draft gives the draft. -/
theorem ofEntries_entries (d : Draft) :
    ofEntries (d.entries.map fun e => (.text e.1, e.2)) = d := by
  rfl

/-- The keys that a draft writes are names of settings. -/
theorem isName_entries (d : Draft) :
    ∀ e ∈ d.entries.map fun e => ((.text e.1, e.2) : Value × Value), isName e.1 = true := by
  simp [entries, isName, names]

/-- All settings are plain. -/
def IsPlain (d : Draft) : Prop := ∀ e ∈ d.entries, e.2.IsPlain

/-- A draft of plain entries is plain. -/
theorem isPlain_ofEntries {given : List (Value × Value)} (h : Value.EntriesPlain given) :
    (ofEntries given).IsPlain := by
  have hfloat : (Scalar.decimal 4 0 : Float).isNaN = false ∧
      (Scalar.decimal 4 1 : Float).isNaN = false ∧
      (Scalar.decimal 1 10 : Float).isNaN = false := by decide +kernel
  obtain ⟨hthreshold, houtliers, htolerance⟩ := hfloat
  simp only [IsPlain, entries, List.forall_mem_cons]
  exact ⟨Value.isPlain_field h _ trivial, Value.isPlain_field h _ hthreshold,
    Value.isPlain_field h _ trivial, Value.isPlain_field h _ trivial,
    Value.isPlain_field h _ trivial, Value.isPlain_field h _ houtliers,
    Value.isPlain_field h _ trivial, Value.isPlain_field h _ trivial,
    Value.isPlain_field h _ htolerance, Value.isPlain_field h _ trivial, by simp⟩

/-- A plain draft is written as a plain value. -/
theorem isPlain_toValue {d : Draft} (h : d.IsPlain) : d.toValue.IsPlain := by
  refine Value.entriesPlain_iff.mpr fun e he => ?_
  obtain ⟨entry, hentry, rfl⟩ := List.mem_map.mp he
  exact ⟨⟨entry.1, rfl⟩, h entry hentry⟩

end Draft

variable {v : Value} {c : Configuration}

/-- A valid configuration is read from what it is written as. -/
theorem ofValue_toValue_of_valid (hvalid : c.validate = .ok ()) : ofValue c.toValue = .ok c := by
  refine ofValue_eq_ok.mpr ⟨_, rfl, c.toDraft.isName_entries, ?_, hvalid⟩
  rw [Draft.ofEntries_entries]
  exact ofDraft_eq_ok.mpr ⟨rfl, rfl⟩

/-- A configuration that was read is read again from what it is written as. -/
theorem ofValue_toValue (h : ofValue v = .ok c) : ofValue c.toValue = .ok c :=
  ofValue_toValue_of_valid (validate_of_ofValue h)

/-- Plain parameters are read as plain entries. -/
theorem isPlain_parametersOf {w : Value} {parameters : List (Value × Value)} (hw : w.IsPlain)
    (h : parametersOf w = .ok parameters) : Value.EntriesPlain parameters := by
  cases w with
  | null =>
    cases h
    trivial
  | record entries =>
    cases h
    exact hw
  | _ => cases h

/-- A configuration from a plain draft gives a plain draft. -/
theorem isPlain_toDraft {d : Draft} (hplain : d.IsPlain) (h : ofDraft d = .ok c) :
    c.toDraft.IsPlain := by
  obtain ⟨hparameters, hd⟩ := ofDraft_eq_ok.mp h
  rw [← hd]
  simp only [Draft.IsPlain, Draft.entries, List.forall_mem_cons] at hplain ⊢
  obtain ⟨hmethod, hthreshold, hmax, hstopping, hrecord, hrest⟩ := hplain
  exact ⟨hmethod, hthreshold, hmax, hstopping, isPlain_parametersOf hrecord hparameters, hrest⟩

/-- A configuration that was read from a plain tree is read again from what it is written as, and
is equal to itself.  The same holds for the file that it is written to if the reader finds in that
file the plain document that the writer has written. -/
theorem reads_back (hplain : v.IsPlain) (h : ofValue v = .ok c) :
    ofValue c.toValue = .ok c ∧ c.same c = true ∧ c.toDocument.IsPlain ∧
      ∀ (reader : String → Option Value) (writer : Value → String),
        reader (c.save writer) = some c.toDocument →
          ∀ path, load reader path (some (c.save writer)) = .ok c := by
  obtain ⟨given, rfl, -, hdraft, -⟩ := ofValue_eq_ok.mp h
  have hvalue : c.toValue.IsPlain :=
    Draft.isPlain_toValue (isPlain_toDraft (Draft.isPlain_ofEntries hplain) hdraft)
  refine ⟨ofValue_toValue h, Value.same_self _ hvalue, ⟨⟨_, rfl⟩, hvalue, trivial⟩, ?_⟩
  intro reader writer hinverse path
  rw [load, hinverse]
  exact ofValue_toValue h

/-- The least median, with a stopping rule that it does not use. -/
def countsNine : Configuration :=
  { default with method := .lmeds, stopping := .count, parameters := [(.text "limit", .int 9)] }

/-- A configuration that counts nine inliers is read back from what is written. -/
theorem reads_back_counting_nine :
    let given : Value := .record [(.text "method", .text "lmeds"),
      (.text "stopping_condition", .text "number_inliers"),
      (.text "stopping_params", .record [(.text "limit", .int 9)])]
    given.IsPlain ∧ ofValue given = .ok countsNine ∧ ofValue countsNine.toValue = .ok countsNine ∧
      countsNine.same countsNine = true ∧
      Yaml.read? (countsNine.save Yaml.render) = some countsNine.toDocument ∧
      load Yaml.read? "estimator.yaml" (some (countsNine.save Yaml.render)) = .ok countsNine := by
  intro given
  have hplain : given.IsPlain :=
    ⟨⟨_, rfl⟩, trivial, ⟨_, rfl⟩, trivial, ⟨_, rfl⟩, ⟨⟨_, rfl⟩, trivial, trivial⟩, trivial⟩
  have hvalid : countsNine.validate = .ok () :=
    Draft.validate_eq_ok.mpr ⟨default_admits, .count 9, rfl⟩
  have hread : ofValue given = .ok countsNine :=
    ofValue_eq_ok.mpr ⟨_, rfl, by decide, rfl, hvalid⟩
  have hyaml : Yaml.read? (countsNine.save Yaml.render) = some countsNine.toDocument := by
    have hagrees : (Yaml.read? (countsNine.save Yaml.render)).any (·.agrees countsNine.toDocument) = true := by
      decide +kernel
    cases hdocument : Yaml.read? (countsNine.save Yaml.render) with
    | none =>
      rw [hdocument] at hagrees
      cases hagrees
    | some document =>
      rw [hdocument] at hagrees
      rw [Value.eq_of_agrees hagrees]
  obtain ⟨hvalue, hsame, -, hload⟩ := reads_back hplain hread
  exact ⟨hplain, hread, hvalue, hsame, hyaml, hload Yaml.read? Yaml.render hyaml "estimator.yaml"⟩

end Projectivity.Configuration
