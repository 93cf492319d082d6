import Projectivity.Proofs.Scalar.Double
import Projectivity.Value.Basic

/-!
# Equality of values

Two values are equal by what they denote, so that the undefined number is not equal to
itself and neither is a tree that holds it.  All other trees with texts as keys are equal
to themselves.
-/

set_option autoImplicit false

namespace Projectivity

/-- Only the undefined double is not equal to itself. -/
theorem Double.beq_self {x : Float} (h : x.isNaN = false) : (x == x) = true := by
  have hnumber : ∃ r, rank x.toModel.unpack = some r := by
    change x.toModel.unpack.isNaN = false at h
    generalize x.toModel.unpack = u at h ⊢
    rcases u with (_ | _) | _ | (_ | _) | ⟨_ | _, m, e, hm⟩
    case notANumber => cases h
    all_goals exact ⟨_, rfl⟩
  obtain ⟨r, hr⟩ := hnumber
  change (x.toModel.unpack.compare x.toModel.unpack == some .eq) = true
  rw [compare_eq_rank, hr, beq_iff_eq]
  exact congrArg some (compare_eq_iff_eq.mpr rfl)

namespace Value

mutual

/-- A tree of nulls, truth values, numbers other than the undefined one, texts, lists and records
with texts as keys. -/
def IsPlain : Value → Prop
  | float x => x.isNaN = false
  | list items => ArePlain items
  | record entries => EntriesPlain entries
  | _ => True

/-- The items of a list are plain. -/
def ArePlain : List Value → Prop
  | [] => True
  | v :: rest => v.IsPlain ∧ ArePlain rest

/-- The entries of a record are plain, and their keys are texts. -/
def EntriesPlain : List (Value × Value) → Prop
  | [] => True
  | (k, v) :: rest => (∃ s, k = text s) ∧ v.IsPlain ∧ EntriesPlain rest

end

/-- Entries are plain exactly if their keys are texts and their values are plain. -/
theorem entriesPlain_iff {entries : List (Value × Value)} :
    EntriesPlain entries ↔ ∀ e ∈ entries, (∃ s, e.1 = text s) ∧ e.2.IsPlain := by
  induction entries with
  | nil => simp [EntriesPlain]
  | cons e rest ih =>
    obtain ⟨k, v⟩ := e
    rw [EntriesPlain, ih, List.forall_mem_cons, and_assoc]

mutual

/-- A plain tree is equal to itself. -/
theorem same_self : ∀ v : Value, v.IsPlain → v.same v = true
  | null, _ => rfl
  | bool b, _ => beq_self_eq_true b
  | int n, _ => beq_self_eq_true n
  | float _, h => Double.beq_self h
  | text s, _ => beq_self_eq_true s
  | list items, h => sameItems_self items h
  | record entries, h => by
    rw [same, beq_self_eq_true, Bool.true_and]
    exact sameEntries_of_subset entries entries h fun _ => id

/-- Plain lists are the same as themselves. -/
theorem sameItems_self : ∀ items : List Value, ArePlain items → sameItems items items = true
  | [], _ => rfl
  | v :: rest, h => by rw [sameItems, same_self v h.1, sameItems_self rest h.2, Bool.true_and]

/-- Each entry is found again in any record that holds it. -/
theorem sameEntries_of_subset : ∀ part whole : List (Value × Value), EntriesPlain part →
    (∀ e ∈ part, e ∈ whole) → sameEntries part whole = true
  | [], _, _, _ => rfl
  | (k, v) :: rest, whole, h, hsubset => by
    obtain ⟨⟨s, rfl⟩, hv, hrest⟩ := h
    rw [sameEntries, Bool.and_eq_true]
    refine ⟨List.any_eq_true.mpr ⟨(text s, v), hsubset _ List.mem_cons_self, ?_⟩, ?_⟩
    · rw [same_self v hv, Bool.and_true]
      exact beq_self_eq_true s
    · exact sameEntries_of_subset rest whole hrest fun e he => hsubset e (List.mem_cons_of_mem _ he)

end

/-- What is read from a plain record is plain if the default is. -/
theorem isPlain_field {entries : List (Value × Value)} (h : EntriesPlain entries) (name : String)
    {v : Value} (hdefault : v.IsPlain) : ((field? entries name).getD v).IsPlain := by
  cases hfield : field? entries name with
  | none => exact hdefault
  | some w =>
    obtain ⟨e, hfound, rfl⟩ := Option.map_eq_some_iff.mp hfield
    exact (entriesPlain_iff.mp h e (List.mem_of_find?_eq_some hfound)).2

mutual

/-- Whether two trees are the same, node by node and in the same order. -/
def agrees : Value → Value → Bool
  | null, null => true
  | bool a, bool b => a == b
  | int a, int b => a == b
  | float a, float b => decide (a = b)
  | text a, text b => a == b
  | list a, list b => itemsAgree a b
  | record a, record b => entriesAgree a b
  | _, _ => false

/-- Whether two lists have the same items. -/
def itemsAgree : List Value → List Value → Bool
  | [], [] => true
  | v :: vs, w :: ws => agrees v w && itemsAgree vs ws
  | _, _ => false

/-- Whether two records have the same entries in the same order. -/
def entriesAgree : List (Value × Value) → List (Value × Value) → Bool
  | [], [] => true
  | (k, v) :: vs, (l, w) :: ws => agrees k l && agrees v w && entriesAgree vs ws
  | _, _ => false

end

mutual

/-- Values that agree are equal. -/
theorem eq_of_agrees : ∀ {v w : Value}, v.agrees w = true → v = w
  | null, w, h => by cases w <;> first | rfl | cases h
  | bool _, w, h => by cases w <;> first | exact congrArg _ (eq_of_beq h) | cases h
  | int _, w, h => by cases w <;> first | exact congrArg _ (eq_of_beq h) | cases h
  | float _, w, h => by cases w <;> first | exact congrArg _ (of_decide_eq_true h) | cases h
  | text _, w, h => by cases w <;> first | exact congrArg _ (eq_of_beq h) | cases h
  | list _, w, h => by cases w <;> first | exact congrArg _ (eq_of_itemsAgree h) | cases h
  | record _, w, h => by cases w <;> first | exact congrArg _ (eq_of_entriesAgree h) | cases h

/-- Lists that agree are equal. -/
theorem eq_of_itemsAgree : ∀ {v w : List Value}, itemsAgree v w = true → v = w
  | [], [], _ => rfl
  | _ :: _, _ :: _, h => by
    obtain ⟨hv, hrest⟩ := Bool.and_eq_true_iff.mp h
    rw [eq_of_agrees hv, eq_of_itemsAgree hrest]

/-- Records that agree are equal. -/
theorem eq_of_entriesAgree : ∀ {v w : List (Value × Value)}, entriesAgree v w = true → v = w
  | [], [], _ => rfl
  | (_, _) :: _, (_, _) :: _, h => by
    obtain ⟨hv, hrest⟩ := Bool.and_eq_true_iff.mp h
    obtain ⟨hk, hv⟩ := Bool.and_eq_true_iff.mp hv
    rw [eq_of_agrees hk, eq_of_agrees hv, eq_of_entriesAgree hrest]

end

end Value

end Projectivity
