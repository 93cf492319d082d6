import Projectivity.Proofs.Configuration.Report
import Projectivity.Proofs.Configuration.RoundTrip
import Projectivity.Proofs.Configuration.Usable

/-!
# Settings that are heeded

Every key of a record of settings that is accepted is the name of a setting.  The record
of the parameters of a stopping rule is not looked through in this way: a rule asks for
the one parameter of its kind, and what the record holds under any other key, a misspelt
name or the parameter of another kind, makes no difference to it.
-/

set_option autoImplicit false

namespace Projectivity

namespace Value

variable {entries rest : List (Value × Value)} {k v : Value} {key name : String}

/-- Only a text is the same as a text. -/
theorem same_text (k : Value) (s : String) : same k (.text s) = true ↔ k = .text s := by
  cases k <;> simp [same]

/-- The first entry of a record is found by its name. -/
theorem field?_cons_text : field? ((.text name, v) :: rest) name = some v := by
  simp [field?]

/-- An entry under another key is passed over. -/
theorem field?_cons_of_ne (h : k ≠ .text name) :
    field? ((k, v) :: rest) name = field? rest name := by
  unfold field?
  rw [List.find?_cons_of_neg]
  split
  · rename_i s hs
    rw [beq_iff_eq]
    rintro rfl
    exact h hs
  · exact Bool.false_ne_true

/-- A record holds a value under the key that is set to it. -/
theorem field?_insert_self : field? (insert entries (.text key) v) key = some v := by
  unfold insert
  split
  · rename_i hany
    induction entries with
    | nil => cases hany
    | cons e rest ih =>
      obtain ⟨k, w⟩ := e
      rw [List.map_cons]
      by_cases hkey : k = .text key
      · subst hkey
        rw [if_pos ((same_text _ _).mpr rfl), field?_cons_text]
      · have hsame : same k (.text key) = false :=
          Bool.eq_false_iff.mpr fun h => hkey ((same_text _ _).mp h)
        rw [List.any_cons, hsame, Bool.false_or] at hany
        rw [hsame, if_neg Bool.false_ne_true, field?_cons_of_ne hkey]
        exact ih hany
  · rename_i hany
    induction entries with
    | nil => exact field?_cons_text
    | cons e rest ih =>
      rw [List.any_cons, Bool.or_eq_true, not_or] at hany
      rw [List.cons_append, field?_cons_of_ne fun h => hany.1 ((same_text _ _).mpr h)]
      exact ih hany.2

/-- Setting a key leaves what a record holds under the other keys. -/
theorem field?_insert_of_ne (h : name ≠ key) :
    field? (insert entries (.text key) v) name = field? entries name := by
  have htexts : Value.text key ≠ .text name := fun hkey => h (Value.text.inj hkey).symm
  unfold insert
  split
  · clear * - htexts
    induction entries with
    | nil => rfl
    | cons e rest ih =>
      obtain ⟨k, w⟩ := e
      rw [List.map_cons]
      by_cases hkey : k = .text key
      · subst hkey
        rw [if_pos ((same_text _ _).mpr rfl), field?_cons_of_ne htexts, ih,
          field?_cons_of_ne htexts]
      · rw [if_neg fun hsame => hkey ((same_text _ _).mp hsame)]
        by_cases hname : k = .text name
        · rw [hname, field?_cons_text, field?_cons_text]
        · rw [field?_cons_of_ne hname, field?_cons_of_ne hname, ih]
  · clear * - htexts
    induction entries with
    | nil => exact field?_cons_of_ne htexts
    | cons e rest ih =>
      obtain ⟨k, w⟩ := e
      rw [List.cons_append]
      by_cases hname : k = .text name
      · rw [hname, field?_cons_text, field?_cons_text]
      · rw [field?_cons_of_ne hname, field?_cons_of_ne hname, ih]

/-- An entry of a record with one more has a new key or an old one. -/
theorem mem_insert {e : Value × Value} (h : e ∈ insert entries k v) :
    e.1 = k ∨ ∃ d ∈ entries, e.1 = d.1 := by
  unfold insert at h
  split at h
  · obtain ⟨d, hd, rfl⟩ := List.mem_map.mp h
    refine Or.inr ⟨d, hd, ?_⟩
    split <;> rfl
  · rcases List.mem_append.mp h with h | h
    · exact Or.inr ⟨e, h, rfl⟩
    · exact Or.inl (congrArg Prod.fst (List.mem_singleton.mp h))

end Value

namespace Stopping

variable {kind : Kind} {parameters others : List (Value × Value)} {rule : Rule Float}

/-- A rule of a kind is built from the parameter of the kind alone. -/
theorem Rule.ofParameters_congr (h : ∀ name, kind.parameter? = some name →
    Value.field? parameters name = Value.field? others name) :
    Rule.ofParameters kind parameters = Rule.ofParameters kind others := by
  cases kind with
  | bestFit => rfl
  | count => simp only [ofParameters, h "limit" rfl]
  | share => simp only [ofParameters, h "percentage" rfl]
  | adaptive => simp only [ofParameters, h "confidence" rfl]

/-- No rule is built if the parameter of its kind is null. -/
theorem Rule.ofParameters_of_null {name : String} (hkind : kind.parameter? = some name)
    (h : Value.field? parameters name = some .null) :
    Rule.ofParameters kind parameters = .error .wrongType := by
  cases kind <;> cases hkind <;> simp only [ofParameters, h] <;> rfl

/-- The keys of the parameters from which a rule is read are names, and not `kind`. -/
theorem Rule.read_eq_ok : Rule.read (.text kind.name) (.record parameters) = .ok rule ↔
    (∀ e ∈ parameters, isParameterName e.1 = true) ∧
      Rule.ofParameters kind parameters = .ok rule := by
  unfold Rule.read
  simp only [Kind.ofValue_name]
  split
  · rename_i hkeys
    rw [List.all_eq_true] at hkeys
    exact (and_iff_right hkeys).symm
  · rename_i hkeys
    rw [List.all_eq_true] at hkeys
    exact iff_of_false (fun h => by cases h) fun h => hkeys h.1

/-- A rule of a kind heeds a key of its parameters if another value under the key gives another
rule, or none. -/
def Kind.Heeds (kind : Kind) (parameters : List (Value × Value)) (key : Value) : Prop :=
  ∃ v, Rule.ofParameters kind (Value.insert parameters key v) ≠ Rule.ofParameters kind parameters

/-- Of all names, a rule that is built heeds that of its parameter. -/
theorem Kind.heeds_iff (h : Rule.ofParameters kind parameters = .ok rule) (name : String) :
    kind.Heeds parameters (.text name) ↔ kind.parameter? = some name := by
  constructor
  · rintro ⟨v, hother⟩
    by_contra hname
    refine hother (Rule.ofParameters_congr fun taken htaken => Value.field?_insert_of_ne ?_)
    rintro rfl
    exact hname htaken
  · intro hname
    refine ⟨.null, fun hsame => ?_⟩
    rw [Rule.ofParameters_of_null hname Value.field?_insert_self, h] at hsame
    cases hsame

end Stopping

namespace Configuration

/-- A configuration with a parameter of its stopping rule set to a value. -/
def withParameter (c : Configuration) (name : String) (v : Value) : Configuration :=
  { c with parameters := Value.insert c.parameters (.text name) v }

variable {given : List (Value × Value)} {c : Configuration}

/-- The stopping rule of a valid configuration can be built. -/
theorem exists_rule_of_validate (hvalid : c.validate = .ok ()) :
    (∀ e ∈ c.parameters, Stopping.isParameterName e.1 = true) ∧
      ∃ rule, Stopping.Rule.ofParameters c.stopping c.parameters = .ok rule := by
  obtain ⟨-, rule, hread⟩ := Draft.validate_eq_ok.mp hvalid
  obtain ⟨hkeys, hrule⟩ := Stopping.Rule.read_eq_ok.mp hread
  exact ⟨hkeys, rule, hrule⟩

section Unheeded

variable {name : String}

/-- With a parameter that its stopping rule does not take, a valid configuration reads its rule as
before. -/
theorem read_withParameter (hvalid : c.validate = .ok ()) (hname : name ≠ "kind")
    (hother : c.stopping.parameter? ≠ some name) (v : Value) :
    Stopping.Rule.read (.text c.stopping.name) (.record (c.withParameter name v).parameters) =
      Stopping.Rule.read (.text c.stopping.name) (.record c.parameters) := by
  obtain ⟨hkeys, rule, hrule⟩ := exists_rule_of_validate hvalid
  have hsame : Stopping.Rule.ofParameters c.stopping (c.withParameter name v).parameters =
      Stopping.Rule.ofParameters c.stopping c.parameters := by
    refine Stopping.Rule.ofParameters_congr fun taken htaken => Value.field?_insert_of_ne ?_
    rintro rfl
    exact hother htaken
  have hnames : ∀ e ∈ (c.withParameter name v).parameters,
      Stopping.isParameterName e.1 = true := by
    intro e he
    rcases Value.mem_insert he with hkey | ⟨d, hd, hkey⟩
    · rw [hkey]
      exact bne_iff_ne.mpr hname
    · rw [hkey]
      exact hkeys d hd
  rw [Stopping.Rule.read_eq_ok.mpr ⟨hnames, hsame.trans hrule⟩,
    Stopping.Rule.read_eq_ok.mpr ⟨hkeys, hrule⟩]

/-- A parameter that a rule does not take leaves a configuration valid. -/
theorem validate_withParameter (hvalid : c.validate = .ok ()) (hname : name ≠ "kind")
    (hother : c.stopping.parameter? ≠ some name) (v : Value) :
    (c.withParameter name v).validate = .ok () := by
  obtain ⟨hadmits, rule, hread⟩ := Draft.validate_eq_ok.mp hvalid
  exact Draft.validate_eq_ok.mpr
    ⟨hadmits, rule, (read_withParameter hvalid hname hother v).trans hread⟩

/-- A parameter that the stopping rule does not take goes unnoticed: the estimator is the one
without it. -/
theorem create_withParameter {σ : Type} (hvalid : c.validate = .ok ()) (hname : name ≠ "kind")
    (hother : c.stopping.parameter? ≠ some name) (v : Value) (sampler : Value → Result σ)
    (seed : Value) : (c.withParameter name v).create sampler seed = c.create sampler seed := by
  have hread := read_withParameter hvalid hname hother v
  unfold create
  rw [validate_withParameter hvalid hname hother v, hvalid]
  simp only [withParameter] at hread ⊢
  rw [hread]

end Unheeded

/-- The keys of a record that is accepted are names of settings.  Its stopping rule heeds all keys
of its parameters exactly if each is the name of the parameter that the kind of the rule takes, and
every other name is accepted beside them and goes unnoticed. -/
theorem heeds_all_iff (h : ofValue (.record given) = .ok c) :
    (∀ e ∈ given, Draft.isName e.1 = true) ∧
      ((∀ e ∈ c.parameters, c.stopping.Heeds c.parameters e.1) ↔
        ∀ e ∈ c.parameters, ∃ name, c.stopping.parameter? = some name ∧ e.1 = .text name) ∧
      ∀ name v, name ≠ "kind" → c.stopping.parameter? ≠ some name →
        ofValue (c.withParameter name v).toValue = .ok (c.withParameter name v) ∧
          ∀ (σ : Type) (sampler : Value → Result σ) (seed : Value),
            (c.withParameter name v).create sampler seed = c.create sampler seed := by
  obtain ⟨_, hgiven, hnames, -, hvalid⟩ := ofValue_eq_ok.mp h
  cases hgiven
  obtain ⟨hkeys, rule, hrule⟩ := exists_rule_of_validate hvalid
  refine ⟨hnames, forall₂_congr fun e he => ?_, fun name v hname hother => ?_⟩
  · cases hkey : e.1 with
    | text name => simp [Stopping.Kind.heeds_iff hrule]
    | _ =>
      have htext := hkeys e he
      rw [hkey] at htext
      cases htext
  · exact ⟨ofValue_toValue_of_valid (validate_withParameter hvalid hname hother v),
      fun σ => create_withParameter hvalid hname hother v⟩

/-- A search that ends at nine inliers. -/
def endsAtNine : Configuration :=
  { default with stopping := .count, parameters := [(.text "limit", .int 9)] }

/-- A search that ends at nine inliers heeds the limit, and does not notice a limit under another
name. -/
theorem heeds_all_ending_at_nine :
    ofValue (.record [(.text "stopping_condition", .text "number_inliers"),
      (.text "stopping_params", .record [(.text "limit", .int 9)])]) = .ok endsAtNine ∧
      (∀ e ∈ endsAtNine.parameters, endsAtNine.stopping.Heeds endsAtNine.parameters e.1) ∧
        (endsAtNine.withParameter "limits" (.int 20)).create Random.Generator.ofValue .null =
          endsAtNine.create Random.Generator.ofValue .null := by
  have hvalid : endsAtNine.validate = .ok () :=
    Draft.validate_eq_ok.mpr ⟨default_admits, .count 9, rfl⟩
  have hread : ofValue (.record [(.text "stopping_condition", .text "number_inliers"),
      (.text "stopping_params", .record [(.text "limit", .int 9)])]) = .ok endsAtNine :=
    ofValue_eq_ok.mpr ⟨_, rfl, by decide, rfl, hvalid⟩
  obtain ⟨-, hheeds, hunnoticed⟩ := heeds_all_iff hread
  refine ⟨hread, hheeds.mpr ?_, ?_⟩
  · exact List.forall_mem_singleton.mpr ⟨"limit", rfl, rfl⟩
  · exact (hunnoticed "limits" (.int 20) (by decide) (by decide)).2 _ _ _

/-- A confidence under a misspelt name is accepted, and the stopping rule does not heed it. -/
theorem not_heeds_misspelt_confidence :
    let c := default.withParameter "confidnce" (.float 0.5)
    ofValue (.record [(.text "stopping_params", .record [(.text "confidnce", .float 0.5)])]) =
        .ok c ∧ ∃ e ∈ c.parameters, ¬ c.stopping.Heeds c.parameters e.1 := by
  intro c
  have hdefault : default.validate = .ok () :=
    validate_withThreshold (List.forall_mem_cons.mp default_admits).1
  have hvalid : c.validate = .ok () := validate_withParameter hdefault (by decide) (by decide) _
  obtain ⟨-, rule, hrule⟩ := exists_rule_of_validate hvalid
  refine ⟨ofValue_eq_ok.mpr ⟨_, rfl, by decide, rfl, hvalid⟩, _, List.mem_singleton_self _, ?_⟩
  exact fun hheeds => absurd ((Stopping.Kind.heeds_iff hrule "confidnce").mp hheeds) (by decide)

end Configuration

end Projectivity
