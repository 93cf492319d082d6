import Projectivity.Configuration.Basic
import Projectivity.Proofs.Value.Number

/-!
# Reading a configuration

A configuration is read in steps: the keys, the names, the ranges and the stopping rule.
What it is read from is a record whose entries, together with the defaults, are those of
the configuration, and the configuration has passed all checks of its ranges.
-/

set_option autoImplicit false

namespace Projectivity

/-- A sequence of checks passes exactly if each of them does. -/
theorem Result.forM_eq_ok {β : Type} {l : List β} {f : β → Result Unit} {u : Unit} :
    l.forM f = .ok u ↔ ∀ e ∈ l, f e = .ok () := by
  induction l with
  | nil => simp [pure, Except.pure]
  | cons e l ih =>
    change (f e >>= fun _ => l.forM f) = .ok u ↔ _
    rw [Result.bind_eq_ok, List.forall_mem_cons, ← ih]
    exact ⟨fun ⟨_, he, hl⟩ => ⟨he, hl⟩, fun ⟨he, hl⟩ => ⟨(), he, hl⟩⟩

namespace Configuration

section Names

variable {β : Type} {choices : List β} {name : β → String}

/-- Where every choice is the first one of its name, a value names a choice exactly if it is the name
of the choice. -/
theorem choose_eq_ok (hfirst : ∀ c, (choices.find? fun d => name d == name c) = some c)
    {subject : String} {v : Value} {c : β} :
    choose subject choices name v = .ok c ↔ v = .text (name c) := by
  constructor
  · intro h
    unfold choose at h
    cases v with
    | text s =>
      cases hfound : choices.find? fun c => name c == s with
      | none =>
        simp only [hfound] at h
        cases h
      | some found =>
        simp only [hfound, Except.ok.injEq] at h
        have hname := List.find?_some hfound
        rw [beq_iff_eq] at hname
        rw [← h, hname]
    | _ => cases h
  · rintro rfl
    simp only [choose, hfirst c]

/-- A method is chosen exactly by its name. -/
theorem choose_method {v : Value} {m : Fitting.Method} :
    choose "method" Fitting.Method.all Fitting.Method.name v = .ok m ↔ v = .text m.name :=
  choose_eq_ok fun m => by cases m <;> rfl

/-- A stopping condition is chosen exactly by its name. -/
theorem choose_stopping {v : Value} {k : Stopping.Kind} :
    choose "stopping_condition" Stopping.Kind.all Stopping.Kind.name v = .ok k ↔
      v = .text k.name :=
  choose_eq_ok fun k => by cases k <;> rfl

/-- A refinement is chosen exactly by its name. -/
theorem choose_refinement {v : Value} {r : Refinement} :
    choose "refinement" Refinement.all Refinement.name v = .ok r ↔ v = .text r.name :=
  choose_eq_ok fun r => by cases r <;> rfl

end Names

/-- A draft is resolved to a configuration exactly if it is the draft of the configuration, but for
parameters that are null instead of empty. -/
theorem ofDraft_eq_ok {d : Draft} {c : Configuration} : ofDraft d = .ok c ↔
    parametersOf d.parameters = .ok c.parameters ∧
      { d with parameters := .record c.parameters } = c.toDraft := by
  unfold ofDraft
  simp only [Result.bind_eq_ok, choose_method, choose_stopping, choose_refinement]
  constructor
  · rintro ⟨method, hmethod, stopping, hstopping, mode, hmode, parameters, hparameters, hc⟩
    cases hc
    refine ⟨hparameters, ?_⟩
    unfold toDraft
    rw [hmethod, hstopping, hmode]
  · rintro ⟨hparameters, hd⟩
    rw [toDraft, Draft.mk.injEq] at hd
    obtain ⟨hmethod, hthreshold, hmax, hstopping, -, houtlier, hmode, hbudget, htolerance, hseed⟩ :=
      hd
    refine ⟨_, hmethod, _, hstopping, _, hmode, _, hparameters, ?_⟩
    rw [hthreshold, hmax, houtlier, hbudget, htolerance, hseed]
    rfl

/-- The check of the keys passes exactly if all of them are names of settings. -/
theorem checkKeys_eq_ok {given : List (Value × Value)} :
    checkKeys given = .ok () ↔ ∀ e ∈ given, Draft.isName e.1 = true := by
  have hknown : ((given.map Prod.fst).filter fun k => !Draft.isName k).isEmpty = true ↔
      ∀ e ∈ given, Draft.isName e.1 = true := by
    simp
  unfold checkKeys
  simp only
  split
  · rename_i hempty
    exact ⟨fun _ => hknown.mp hempty, fun _ => rfl⟩
  · rename_i hunknown
    constructor
    · intro h
      obtain ⟨names, -, hthrow⟩ := Result.bind_eq_ok.mp h
      cases hthrow
    · intro h
      exact absurd (hknown.mpr h) hunknown

/-- A configuration is read exactly from a record of known settings that give a valid one. -/
theorem ofValue_eq_ok {v : Value} {c : Configuration} : ofValue v = .ok c ↔
    ∃ given, v = .record given ∧ (∀ e ∈ given, Draft.isName e.1 = true) ∧
      ofDraft (Draft.ofEntries given) = .ok c ∧ c.validate = .ok () := by
  cases v with
  | record given =>
    simp only [ofValue, Result.bind_eq_ok]
    constructor
    · rintro ⟨_, hkeys, d, hdraft, _, hvalid, hc⟩
      cases hc
      exact ⟨given, rfl, checkKeys_eq_ok.mp hkeys, hdraft, hvalid⟩
    · rintro ⟨_, hgiven, hkeys, hdraft, hvalid⟩
      cases hgiven
      exact ⟨(), checkKeys_eq_ok.mpr hkeys, c, hdraft, (), hvalid, rfl⟩
  | _ =>
    constructor
    · rintro ⟨⟩
    · rintro ⟨_, ⟨⟩, -⟩

/-- A configuration that has been read is valid. -/
theorem validate_of_ofValue {v : Value} {c : Configuration} (h : ofValue v = .ok c) :
    c.validate = .ok () := by
  obtain ⟨given, -, -, -, hvalid⟩ := ofValue_eq_ok.mp h
  exact hvalid

/-- The numbers among the settings, with the quantities that they are. -/
def Draft.quantities (d : Draft) : List (Quantity × Value) :=
  [(.threshold, d.threshold), (.maxIterations, d.maxIterations),
    (.outlierProportion, d.outlierProportion),
    (.refinementMaxIterations, d.refinementMaxIterations),
    (.refinementTolerance, d.refinementTolerance)]

/-- The numbers are checked one after the other, and the stopping rule after them. -/
theorem Draft.validate_eq (d : Draft) : d.validate =
    (d.quantities.forM fun e => e.1.check e.2 >>= fun _ => .ok ()) >>= fun _ =>
      Stopping.Rule.read d.stopping d.parameters >>= fun _ => .ok () := by
  have hok : ∀ x : Result Unit, (Except.ok () >>= fun _ => x) = x := fun _ => rfl
  have hpure : (pure () : Result Unit) = .ok () := rfl
  simp only [Draft.validate, Draft.quantities, List.forM, bind_assoc, hok, hpure]

/-- A draft is valid exactly if its quantities are admitted and its stopping rule can be read. -/
theorem Draft.validate_eq_ok {d : Draft} : d.validate = .ok () ↔
    (∀ e ∈ d.quantities, e.1.Admits e.2) ∧
      ∃ rule, Stopping.Rule.read d.stopping d.parameters = .ok rule := by
  rw [validate_eq]
  simp only [Result.bind_eq_ok, Result.forM_eq_ok, Quantity.check_eq_ok, and_true, Quantity.Admits,
    exists_const]

/-- The quantities of the default configuration are admitted. -/
theorem default_admits : ∀ e ∈ default.toDraft.quantities, e.1.Admits e.2 := by
  simp only [Draft.quantities, List.forall_mem_cons]
  refine ⟨⟨_, rfl, ?_⟩, ⟨_, rfl, ?_⟩, ⟨_, rfl, ?_⟩, ⟨_, rfl, ?_⟩, ⟨_, rfl, ?_⟩, by simp⟩ <;>
    decide +kernel

end Configuration

end Projectivity
