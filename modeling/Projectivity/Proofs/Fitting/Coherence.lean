import Projectivity.Proofs.Fitting.Graded
import Projectivity.Proofs.Fitting.Parameters

/-!
# Stopping rules over whole runs

A rule is set up again and again, for other numbers of items and other sample sizes, and it
is asked in between whatever the caller likes.  Its verdict on a number of inliers depends
on the last setup only, although an adaptive rule remembers the iterations that it has
reckoned last.  The verdicts do not turn back when inliers or iterations become more, and
a rule that ends a search accepts the outcome.
-/

set_option autoImplicit false

namespace Projectivity

namespace Stopping

variable {α : Type} [Scalar α]

/-- What a rule is called for. -/
inductive Call where
  /-- It is set up for a number of items and a sample size. -/
  | start (items sampleSize : ℕ)
  /-- It is asked whether to stop with a number of inliers after a number of iterations. -/
  | ask (inliers iteration : ℤ)

namespace Call

/-- The rule after a call. -/
def apply (t : Stopping α) : Call → Stopping α
  | start items sampleSize => t.start items sampleSize
  | ask inliers iteration => (t.shouldStop inliers iteration).2

/-- The last setup after a call. -/
def last (setup : Option (ℕ × ℕ)) : Call → Option (ℕ × ℕ)
  | start items sampleSize => some (items, sampleSize)
  | ask _ _ => setup

end Call

/-- A rule after a run of calls. -/
def after (t : Stopping α) (calls : List Call) : Stopping α := calls.foldl Call.apply t

/-- The setup that a run of calls ends with. -/
def lastSetup (calls : List Call) : Option (ℕ × ℕ) := calls.foldl Call.last none

/-- Whether the number of items is a scalar, for the rules that reckon with it. -/
def Rule.Reckons (rule : Rule α) (items : ℕ) : Prop :=
  match rule with
  | .bestFit | .count _ => True
  | .share _ | .adaptive _ => Scalar.isFinite (Scalar.ofInt items : α) = true

/-- What a rule is set up for: samples that hold an item, and at least as many items as a sample
holds, with which the rule can reckon. -/
structure Rule.Fits (rule : Rule α) (items sampleSize : ℕ) : Prop where
  sampleSize_pos : 1 ≤ sampleSize
  sampleSize_le : sampleSize ≤ items
  reckons : rule.Reckons items

/-- There is an item if a sample can be drawn. -/
theorem Rule.Fits.items_pos {rule : Rule α} {items sampleSize : ℕ}
    (h : rule.Fits items sampleSize) : 0 < items :=
  h.sampleSize_pos.trans h.sampleSize_le

/-- How a rule judges numbers of inliers among the items after it has been set up.  The verdict
depends on the rule, the setup and what the rule is asked, and neither more inliers nor more
iterations take it back.  What ends a search is accepted, and so is more, but never less than a
sample holds. -/
structure Coherent (rule : Rule α) (items sampleSize : ℕ) (t : Stopping α) : Prop where
  answers : ∀ c i : ℤ, sampleSize ≤ c → c ≤ items → ∃ stops, (t.shouldStop c i).1 = .ok stops ∧
    (stops = true ↔ rule.Holds items sampleSize c i)
  stops_mono : ∀ c d i j : ℤ, sampleSize ≤ c → c ≤ d → d ≤ items → i ≤ j →
    (t.shouldStop c i).1 = .ok true → (t.shouldStop d j).1 = .ok true
  accepts_of_stops : ∀ c i : ℤ, sampleSize ≤ c → c ≤ items → (t.shouldStop c i).1 = .ok true →
    t.accepts c = .ok true
  accepts_mono : ∀ c d : ℤ, c ≤ d → t.accepts c = .ok true → t.accepts d = .ok true
  sampleSize_le : ∀ c : ℤ, t.accepts c = .ok true → sampleSize ≤ c

/-- All items are enough for a rule that does not ask for a number of them, and a share of the items
is among the numbers of inliers that there can be. -/
structure Attainable (rule : Rule α) (items sampleSize : ℕ) (t : Stopping α) : Prop where
  accepts_all : (∀ limit, rule ≠ .count limit) → t.accepts items = .ok true
  limit_bounds : ∀ percentage, rule = .share percentage → ∃ setup, t.setup = some setup ∧
    sampleSize ≤ setup.effectiveLimit ∧ setup.effectiveLimit ≤ items

section Memory

variable {setup : Setup} {confidence : α} {c k : ℤ}

/-- The iterations that a setup holds are the ones for the number of inliers that it remembers,
unless there are none for it. -/
def Setup.Memory (setup : Setup) (confidence : α) : Prop :=
  setup.sampleSize ≤ setup.lastInliers → ∀ k,
    Fitting.iterationsFor confidence setup.lastInliers setup.items setup.sampleSize = .ok k →
    setup.required = k

/-- An update that fails remembers the number of inliers for which it fails, and so holds the
iterations of another one; but there are none for this number. -/
theorem Setup.Memory.update (h : setup.Memory confidence) (c : ℤ) :
    (setup.update confidence c).2.Memory confidence := by
  unfold Setup.update
  by_cases hrecompute : c ≠ setup.lastInliers ∧ setup.sampleSize ≤ c
  · rw [if_pos hrecompute]
    simp only
    split
    · rename_i k hk
      exact fun _ k' hk' => Except.ok.inj (hk.symm.trans hk')
    · rename_i cause hfault
      exact fun _ k hk => absurd (hfault.symm.trans hk) (by simp)
  · rw [if_neg hrecompute]
    exact h

/-- An update of a right memory sets the iterations for the inliers that it is asked about. -/
theorem Setup.Memory.required_eq (h : setup.Memory confidence) (henough : setup.sampleSize ≤ c)
    (hk : Fitting.iterationsFor confidence c setup.items setup.sampleSize = .ok k) :
    (setup.update confidence c).1 = .ok () ∧ (setup.update confidence c).2.required = k := by
  unfold Setup.update
  by_cases hsame : c = setup.lastInliers
  · subst hsame
    rw [if_neg fun hrecompute => hrecompute.1 rfl]
    exact ⟨rfl, h henough k hk⟩
  · rw [if_pos ⟨hsame, henough⟩]
    simp only [hk, and_self]

end Memory

section Runs

variable {rule : Rule α} {items sampleSize : ℕ} {t : Stopping α}

/-- A rule that is set up, with a memory that is right if it needs one. -/
structure Remembers (rule : Rule α) (items sampleSize : ℕ) (t : Stopping α) : Prop
    extends SetUp rule items sampleSize t where
  memory : ∀ confidence setup, rule = .adaptive confidence → t.setup = some setup →
    setup.Memory confidence

/-- A setup remembers nothing that is not right. -/
theorem start_remembers (t : Stopping α) (items sampleSize : ℕ) :
    Remembers t.rule items sampleSize (t.start items sampleSize) where
  toSetUp := t.start_setUp items sampleSize
  memory confidence setup _ hsetup := by
    obtain rfl := Option.some.inj hsetup
    intro henough
    have hempty : (sampleSize : ℤ) ≤ -1 := henough
    omega

/-- A question leaves a memory that is right. -/
theorem Remembers.ask (h : Remembers rule items sampleSize t) (c i : ℤ) :
    Remembers rule items sampleSize (t.shouldStop c i).2 where
  toSetUp := h.toSetUp.shouldStop c i
  memory confidence setup hrule hsetup := by
    obtain ⟨_, _, hbefore⟩ := h.setup_eq
    unfold shouldStop at hsetup
    rw [h.rule_eq, hrule, hbefore] at hsetup
    obtain rfl := Option.some.inj hsetup
    exact (h.memory confidence _ hrule hbefore).update c

/-- What a run of calls keeps. -/
def Kept (rule : Rule α) (setup : Option (ℕ × ℕ)) (t : Stopping α) : Prop :=
  t.rule = rule ∧ ∀ items sampleSize, setup = some (items, sampleSize) →
    Remembers rule items sampleSize t

/-- A call keeps what is kept. -/
theorem Kept.apply {setup : Option (ℕ × ℕ)} (h : Kept rule setup t) (call : Call) :
    Kept rule (call.last setup) (call.apply t) := by
  obtain ⟨rfl, hsetup⟩ := h
  cases call with
  | start items sampleSize =>
    refine ⟨rfl, ?_⟩
    rintro _ _ ⟨⟩
    exact start_remembers t items sampleSize
  | ask c i =>
    exact ⟨t.shouldStop_rule c i, fun items sampleSize hlast =>
      (hsetup items sampleSize hlast).ask c i⟩

/-- The induction is on the calls, over every setup and every memory that they begin with. -/
theorem Kept.run {setup : Option (ℕ × ℕ)} (h : Kept rule setup t) (calls : List Call) :
    Kept rule (calls.foldl Call.last setup) (after t calls) := by
  induction calls generalizing setup t with
  | nil => exact h
  | cons call rest ih => exact ih (h.apply call)

/-- After a run of calls, the memory is right for the last setup. -/
theorem after_remembers {calls : List Call} (hlast : lastSetup calls = some (items, sampleSize)) :
    Remembers rule items sampleSize (after (.ofRule rule) calls) := by
  have hfresh : Kept rule none (.ofRule rule) := ⟨rfl, fun _ _ h => by cases h⟩
  exact (hfresh.run calls).2 items sampleSize hlast

end Runs

section Coherence

variable {rule : Rule α} {items sampleSize : ℕ} {t : Stopping α}

/-- The least number of inliers that is accepted is at least a sample. -/
theorem Rule.sampleSize_le_least (rule : Rule α) (items sampleSize : ℕ) :
    (sampleSize : ℤ) ≤ rule.least items sampleSize := by
  cases rule <;> simp [least]

/-- There are at least so many inliers wherever a rule holds. -/
theorem Rule.Holds.least_le {c i : ℤ} (h : rule.Holds items sampleSize c i)
    (henough : sampleSize ≤ c) : rule.least items sampleSize ≤ c := by
  cases rule with
  | bestFit => exact henough
  | adaptive confidence => exact henough
  | count limit => exact h
  | share percentage => exact h

/-- What can be attained is decided by the limit of a share. -/
theorem Remembers.attainable_iff (h : Remembers rule items sampleSize t)
    (hfits : rule.Fits items sampleSize) : Attainable rule items sampleSize t ↔
      ∀ percentage, rule = .share percentage → rule.limitFor items ≤ items := by
  have hsize : (sampleSize : ℤ) ≤ items := by exact_mod_cast hfits.sampleSize_le
  obtain ⟨_, _, hsetup⟩ := h.setup_eq
  constructor
  · intro hattainable percentage hrule
    obtain ⟨setup, hsome, -, hle⟩ := hattainable.limit_bounds percentage hrule
    rw [hsetup, Option.some.injEq] at hsome
    rw [← hsome] at hle
    exact (le_max_left _ _).trans hle
  · intro hlimit
    refine ⟨fun hcount => (h.accepts_iff _).mpr ?_, fun percentage hrule => ?_⟩
    · cases rule with
      | bestFit => exact hsize
      | adaptive confidence => exact hsize
      | count limit => exact absurd rfl (hcount limit)
      | share percentage => exact max_le (hlimit percentage rfl) hsize
    · exact ⟨_, hsetup, le_max_right _ _, max_le (hlimit percentage hrule) hsize⟩

section Answers

variable [Reckoned α]

/-- For a valid confidence there are iterations for every number of inliers. -/
theorem exists_required (hvalid : rule.Valid) (hfits : rule.Fits items sampleSize)
    {confidence : α} (hrule : rule = .adaptive confidence) {c : ℤ} (henough : sampleSize ≤ c)
    (hmost : c ≤ items) :
    ∃ k, Fitting.iterationsFor confidence c items sampleSize = .ok k := by
  subst hrule
  obtain ⟨inliers, rfl⟩ := Int.eq_ofNat_of_zero_le (by omega : 0 ≤ c)
  exact Reckoned.exists_required hfits.sampleSize_pos hvalid.1 hvalid.2 (by omega) (by omega)
    hfits.reckons

/-- The verdict on a number of inliers among the items is what the rule says. -/
theorem Remembers.answers (h : Remembers rule items sampleSize t) (hvalid : rule.Valid)
    (hfits : rule.Fits items sampleSize) {c : ℤ} (henough : sampleSize ≤ c)
    (hmost : c ≤ items) (i : ℤ) : ∃ stops, (t.shouldStop c i).1 = .ok stops ∧
      (stops = true ↔ rule.Holds items sampleSize c i) := by
  obtain ⟨_, _, hsetup⟩ := h.setup_eq
  have hrule := h.rule_eq
  unfold shouldStop
  rw [hrule, hsetup]
  cases rule with
  | bestFit => exact ⟨false, rfl, iff_of_false Bool.false_ne_true id⟩
  | count limit => exact ⟨_, rfl, decide_eq_true_iff⟩
  | share percentage => exact ⟨_, rfl, decide_eq_true_iff⟩
  | adaptive confidence =>
    obtain ⟨k, hk⟩ := exists_required hvalid hfits rfl henough hmost
    have hright := (h.memory confidence _ rfl hsetup).required_eq henough hk
    rcases hupdate : Setup.update _ confidence c with ⟨outcome, next⟩
    rw [hupdate] at hright
    obtain ⟨rfl, rfl⟩ : outcome = .ok () ∧ next.required = k := hright
    simp only [hupdate]
    refine ⟨_, rfl, ?_⟩
    rw [decide_eq_true_eq, Rule.Holds, Fitting.requiredIterations_of_iterationsFor hk]
    simp only [Except.ok.injEq, exists_eq_left']

/-- A rule that remembers what is right stops exactly where it holds. -/
theorem Remembers.stops_iff (h : Remembers rule items sampleSize t)
    (hvalid : rule.Valid) (hfits : rule.Fits items sampleSize) {c i : ℤ}
    (henough : sampleSize ≤ c) (hmost : c ≤ items) :
    (t.shouldStop c i).1 = .ok true ↔ rule.Holds items sampleSize c i := by
  obtain ⟨stops, hstops, hiff⟩ := h.answers hvalid hfits henough hmost i
  rw [hstops, Except.ok.injEq, hiff]

end Answers

variable [Graded α]

/-- What a rule says is not taken back when inliers or iterations become more. -/
theorem Rule.Holds.mono {c d i j : ℤ} (h : rule.Holds items sampleSize c i) (hvalid : rule.Valid)
    (hfits : rule.Fits items sampleSize) (henough : sampleSize ≤ c) (hcd : c ≤ d)
    (hmost : d ≤ items) (hij : i ≤ j) : rule.Holds items sampleSize d j := by
  cases rule with
  | bestFit => exact h
  | count limit => exact le_trans h hcd
  | share percentage => exact le_trans h hcd
  | adaptive confidence =>
    obtain ⟨k, hk, hki⟩ := h
    obtain ⟨k', hk'⟩ := exists_required hvalid hfits rfl (henough.trans hcd) hmost
    have hmore := Fitting.requiredIterations_of_iterationsFor hk'
    refine ⟨k', hmore, le_trans ?_ (hki.trans hij)⟩
    obtain ⟨inliers, rfl⟩ := Int.eq_ofNat_of_zero_le (by omega : 0 ≤ c)
    obtain ⟨more, rfl⟩ := Int.eq_ofNat_of_zero_le (by omega : 0 ≤ d)
    exact Graded.required_le hfits.sampleSize_pos hvalid.1 hvalid.2 (by omega) (by omega) (by omega)
      hfits.reckons hk hmore

/-- A rule that remembers what is right is coherent. -/
theorem Remembers.coherent (h : Remembers rule items sampleSize t) (hvalid : rule.Valid)
    (hfits : rule.Fits items sampleSize) : Coherent rule items sampleSize t where
  answers c i henough hmost := h.answers hvalid hfits henough hmost i
  stops_mono c d i j henough hcd hmost hij hstops := by
    rw [h.stops_iff hvalid hfits henough (hcd.trans hmost)] at hstops
    rw [h.stops_iff hvalid hfits (henough.trans hcd) hmost]
    exact hstops.mono hvalid hfits henough hcd hmost hij
  accepts_of_stops c i henough hmost hstops := by
    rw [h.stops_iff hvalid hfits henough hmost] at hstops
    exact (h.accepts_iff c).mpr (hstops.least_le henough)
  accepts_mono c d hcd haccepts :=
    (h.accepts_iff d).mpr (((h.accepts_iff c).mp haccepts).trans hcd)
  sampleSize_le c haccepts :=
    (rule.sampleSize_le_least items sampleSize).trans ((h.accepts_iff c).mp haccepts)

/-- The limit of a share is at most the number of items, as long as doubles count them exactly. -/
theorem limitFor_share_le {percentage : α} (hpos : 0 < percentage) (hle : percentage ≤ 1)
    (hitems : 0 < items) (hdigits : items ≤ 2 ^ 53) :
    (Rule.share percentage).limitFor items ≤ items :=
  max_le (by omega) (Graded.share_le hpos hle hitems hdigits)

/-- After every run of calls that sets it up, a rule judges numbers of inliers by its last setup
alone, and coherently.  All items are enough for it exactly if the limit of a share is not beyond
them, which rounding rules out for up to `2 ^ 53` items. -/
theorem after_coherent (hvalid : rule.Valid) (hfits : rule.Fits items sampleSize)
    {calls : List Call} (hlast : lastSetup calls = some (items, sampleSize)) :
    Coherent rule items sampleSize (after (.ofRule rule) calls) ∧
      (Attainable rule items sampleSize (after (.ofRule rule) calls) ↔
        ∀ percentage, rule = .share percentage → rule.limitFor items ≤ items) ∧
      (items ≤ 2 ^ 53 → Attainable rule items sampleSize (after (.ofRule rule) calls)) := by
  have hremembers : Remembers rule items sampleSize (after (.ofRule rule) calls) :=
    after_remembers hlast
  have hiff := hremembers.attainable_iff hfits
  refine ⟨hremembers.coherent hvalid hfits, hiff, fun hdigits => hiff.mpr ?_⟩
  rintro percentage rfl
  exact limitFor_share_le hvalid.1 hvalid.2 hfits.items_pos hdigits

end Coherence

/-- An adaptive rule that has been asked among ten items is set up for a hundred. -/
theorem after_coherent_of_second_setup :
    let rule : Rule Float := .adaptive defaultConfidence
    let calls := [.start 10 4, .ask 7 3, .ask 70 3, .start 100 4, .ask 70 12]
    rule.Valid ∧ rule.Fits 100 4 ∧ lastSetup calls = some (100, 4) ∧
      Coherent rule 100 4 (after (.ofRule rule) calls) ∧
      Attainable rule 100 4 (after (.ofRule rule) calls) := by
  intro rule calls
  have hvalid : rule.Valid := ⟨by decide +kernel, by decide +kernel⟩
  have hfinite : Scalar.isFinite (Scalar.ofInt 100 : Float) = true := by decide +kernel
  have hfits : rule.Fits 100 4 := ⟨by decide, by decide, hfinite⟩
  have hlast : lastSetup calls = some (100, 4) := rfl
  obtain ⟨hcoherent, -, hattainable⟩ := after_coherent hvalid hfits hlast
  exact ⟨hvalid, hfits, hlast, hcoherent, hattainable (by decide)⟩

/-- Between two doubles the number of items goes to the larger one, and a rule that asks for all
items asks for one more than there are. -/
theorem not_attainable_of_many_items :
    let rule : Rule Float := .share 1
    let calls := [.start (2 ^ 53 + 3) 4]
    let t := after (.ofRule rule) calls
    rule.Valid ∧ rule.Fits (2 ^ 53 + 3) 4 ∧ lastSetup calls = some (2 ^ 53 + 3, 4) ∧
      t.accepts (2 ^ 53 + 3) ≠ .ok true ∧ (t.shouldStop (2 ^ 53 + 3) 1).1 = .ok false ∧
      ¬ Attainable rule (2 ^ 53 + 3) 4 t := by
  intro rule calls t
  have hvalid : rule.Valid := ⟨by decide +kernel, by decide +kernel⟩
  have hfinite : Scalar.isFinite (Scalar.ofInt (2 ^ 53 + 3) : Float) = true := by decide +kernel
  have hfits : rule.Fits (2 ^ 53 + 3) 4 := ⟨by decide, by decide, hfinite⟩
  have hlast : lastSetup calls = some (2 ^ 53 + 3, 4) := rfl
  have hremembers : Remembers rule (2 ^ 53 + 3) 4 t := after_remembers hlast
  have hleast : rule.least (2 ^ 53 + 3) 4 = 2 ^ 53 + 4 := by decide +kernel
  have haccepts : t.accepts (2 ^ 53 + 3) ≠ .ok true := by
    rw [ne_eq, hremembers.accepts_iff]
    exact hleast ▸ by decide
  obtain ⟨stops, hstops, hiff⟩ := hremembers.answers hvalid hfits (c := 2 ^ 53 + 3) (by decide)
    (by decide) 1
  have hgoes : stops ≠ true := fun htrue => by
    have hle := (hiff.mp htrue).least_le (by decide)
    rw [show ((2 ^ 53 + 3 : ℕ) : ℤ) = 2 ^ 53 + 3 by norm_num] at hle
    exact haccepts ((hremembers.accepts_iff _).mpr hle)
  refine ⟨hvalid, hfits, hlast, haccepts, ?_, fun hattainable => ?_⟩
  · rw [hstops, Bool.eq_false_of_not_eq_true hgoes]
  · exact haccepts (hattainable.accepts_all fun limit => by simp [rule])

end Stopping

end Projectivity
