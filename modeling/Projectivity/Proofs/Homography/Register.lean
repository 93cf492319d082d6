import Projectivity.Homography.Register
import Projectivity.Proofs.Exact.Recovery
import Projectivity.Proofs.Exact.WideLinear
import Projectivity.Proofs.Homography.Accurate
import Projectivity.Proofs.Homography.Factor

/-!
# What operations leave alone

The matrix of a homography is in an array that nobody outside holds, since every array
that is handed out or kept is a new one.  Whatever is done with the arrays outside, an
operation therefore changes at most the homography under its target, and only if it
succeeds.  In exact arithmetic every homography is finite, and one that has just been
estimated is a non-singular matrix in its canonical scale, given by the data alone.  With
a singular value decomposition that is accurate, the same holds in doubles as far as the
squares of what is estimated neither get lost nor exceed the doubles.
-/

set_option autoImplicit false

namespace Projectivity

namespace Register

section Arrays

variable {α : Type} {r s : Register α} {name other : String} {a : ℕ} {A : Matrix3 α}
variable {H : Homography α}

/-- The arrays of homographies exist, and none of them has been handed out. -/
structure Owned (r : Register α) : Prop where
  exists_array : ∀ {name a}, r.addresses.lookup name = some a → a < r.arrays.length
  exists_held : ∀ {a}, a ∈ r.held → a < r.arrays.length
  apart : ∀ {name a}, r.addresses.lookup name = some a → a ∉ r.held

/-- A homography is found again where its name has the address that it had, and the array at this
address the entries that it had. -/
theorem find?_eq_of_same (haddress : s.addresses.lookup name = r.addresses.lookup name)
    (hentries : ∀ a, r.addresses.lookup name = some a → s.arrays[a]? = r.arrays[a]?) :
    s.find? name = r.find? name := by
  unfold find?
  rw [haddress]
  cases ha : r.addresses.lookup name with
  | none => rfl
  | some a => rw [Option.bind_some, Option.bind_some, hentries a ha]

/-- There are no arrays at the beginning. -/
theorem owned_empty : (empty : Register α).Owned where
  exists_array ha := by cases ha
  exists_held ha := by cases ha
  apart ha := by cases ha

section Bind

/-- A homography that is put under a name has the address of a new array. -/
theorem lookup_bind (r : Register α) (name other : String) (H : Homography α) :
    (r.perform (.bind name H)).addresses.lookup other =
      if other = name then some r.arrays.length else r.addresses.lookup other := by
  show ((name, r.arrays.length) :: r.addresses).lookup other = _
  rw [List.lookup_cons]
  by_cases hname : other = name
  · rw [if_pos hname, hname, beq_self_eq_true]
  · rw [if_neg hname, beq_false_of_ne hname]

/-- The homography that is put under a name is found there. -/
theorem find?_bind (r : Register α) (name : String) (H : Homography α) :
    (r.perform (.bind name H)).find? name = some H := by
  unfold find?
  rw [lookup_bind, if_pos rfl, Option.bind_some]
  simp [perform]

/-- The homographies under other names are found as before. -/
theorem find?_bind_of_ne (h : r.Owned) (hne : other ≠ name) :
    (r.perform (.bind name H)).find? other = r.find? other := by
  refine find?_eq_of_same ?_ fun a ha => ?_
  · rw [lookup_bind, if_neg hne]
  · exact List.getElem?_append_left (h.exists_array ha)

/-- The arrays of homographies are still apart when another one is put under a name. -/
theorem Owned.bind (h : r.Owned) : (r.perform (.bind name H)).Owned := by
  have hlength : (r.perform (.bind name H)).arrays.length = r.arrays.length + 1 :=
    List.length_append
  refine ⟨fun {other a} ha => ?_, fun {a} ha => ?_, fun {other a} ha hheld => ?_⟩
  · rw [lookup_bind] at ha
    split at ha
    · cases ha
      omega
    · have := h.exists_array ha
      omega
  · have := h.exists_held ha
    omega
  · rw [lookup_bind] at ha
    split at ha
    · -- The address of the new array is beyond all that have been handed out.
      cases ha
      exact absurd (h.exists_held hheld) (lt_irrefl _)
    · exact h.apart ha hheld

end Bind

section Outside

/-- Handing out an array changes no homography. -/
theorem find?_handOut (h : r.Owned) : (r.perform (.handOut A)).find? name = r.find? name :=
  find?_eq_of_same rfl fun _ ha => List.getElem?_append_left (h.exists_array ha)

/-- The arrays of homographies are still apart when an array is handed out. -/
theorem Owned.handOut (h : r.Owned) : (r.perform (.handOut A)).Owned := by
  have hlength : (r.perform (.handOut A)).arrays.length = r.arrays.length + 1 :=
    List.length_append
  refine ⟨fun {name a} ha => ?_, fun {a} ha => ?_, fun {name a} ha hheld => ?_⟩
  · have := h.exists_array ha
    omega
  · rcases List.mem_cons.mp ha with rfl | ha
    · omega
    · have := h.exists_held ha
      omega
  · rcases List.mem_cons.mp hheld with rfl | hheld
    · exact absurd (h.exists_array ha) (lt_irrefl _)
    · exact h.apart ha hheld

/-- Overwriting an array that has been handed out changes no homography. -/
theorem find?_overwrite (h : r.Owned) (ha : a ∈ r.held) :
    (r.perform (.overwrite a A)).find? name = r.find? name := by
  refine find?_eq_of_same rfl fun b hb => List.getElem?_set_ne ?_
  -- The array of the homography would have been handed out otherwise.
  rintro rfl
  exact h.apart hb ha

/-- The arrays of homographies are still apart when an array is overwritten. -/
theorem Owned.overwrite (h : r.Owned) : (r.perform (.overwrite a A)).Owned := by
  have hlength : (r.perform (.overwrite a A)).arrays.length = r.arrays.length := List.length_set
  exact ⟨fun ha => hlength ▸ h.exists_array ha, fun ha => hlength ▸ h.exists_held ha, h.apart⟩

end Outside

section Every

variable {P : Matrix3 α → Prop}

/-- The matrices of all homographies have a property. -/
def Every (P : Matrix3 α → Prop) (r : Register α) : Prop :=
  ∀ name H, r.find? name = some H → P H.matrix

/-- Without homographies all of them have any property. -/
theorem every_empty : (empty : Register α).Every P := fun _ _ hH => by cases hH

/-- If the new homography has the property, all have it when it has been put under a name. -/
theorem Every.bind (h : r.Every P) (howned : r.Owned) (hH : P H.matrix) :
    (r.perform (.bind name H)).Every P := by
  intro other K hK
  by_cases hname : other = name
  · rw [hname, find?_bind] at hK
    cases hK
    exact hH
  · rw [find?_bind_of_ne howned hname] at hK
    exact h other K hK

end Every

end Arrays

section Arguments

variable {α : Type} {r : Register α}

/-- What is read under a name is found there. -/
theorem find?_of_get {name : String} {H : Homography α} (h : r.get name = .ok H) :
    r.find? name = some H := by
  unfold get at h
  split at h
  · cases h
    assumption
  · cases h

/-- An array that is named by its position has been handed out. -/
theorem mem_held_of_heldAddress {position a : ℕ} (h : r.heldAddress position = .ok a) :
    a ∈ r.held := by
  unfold heldAddress at h
  split at h
  · cases h
    exact List.mem_of_getElem? (by assumption)
  · cases h

/-- What is estimated from has a property, if an operation estimates something. -/
def Operation.From (Q : List (Correspondence α) → Prop) : Operation α → Prop
  | .estimate _ (.ok data) => Q data
  | _ => True

/-- A property that all data have is one of the data of every operation. -/
theorem Operation.from_of_forall {Q : List (Correspondence α) → Prop} (h : ∀ data, Q data)
    (operation : Operation α) : operation.From Q := by
  unfold Operation.From
  split
  · exact h _
  · trivial

/-- What an operation of a list estimates from is estimated from by an operation of the list. -/
theorem Operation.from_of_mem {operations : List (Operation α)} {operation : Operation α}
    (h : operation ∈ operations) :
    operation.From fun data => ∃ target, .estimate target (.ok data) ∈ operations := by
  unfold Operation.From
  split
  · exact ⟨_, h⟩
  · trivial

variable [Scalar α] {H K : Homography α}

/-- A homography of a given matrix is finite. -/
theorem isFinite_of_ofMatrix {A : Matrix3 α} (h : Homography.ofMatrix A = .ok H) :
    H.matrix.isFinite = true := by
  unfold Homography.ofMatrix at h
  split at h
  · cases h
    assumption
  · cases h

/-- A homography of a given table is finite. -/
theorem isFinite_of_ofTable {t : Table α} (h : Homography.ofTable t = .ok H) :
    H.matrix.isFinite = true := by
  obtain ⟨A, -, hA⟩ := Result.bind_eq_ok.mp h
  exact isFinite_of_ofMatrix hA

/-- The inverse of a homography is finite. -/
theorem isFinite_of_inverse [Spectral α] (h : H.inverse = .ok K) : K.matrix.isFinite = true := by
  unfold Homography.inverse at h
  split at h
  · exact isFinite_of_ofMatrix h
  · cases h

end Arguments

section Operations

variable {α : Type} [Scalar α] [Spectral α] {report : α → Float} {r : Register α}
variable {operation : Operation α} {answer : Answer α} {effect : Effect α}

/-- Where a homography comes from that is put under a name without being estimated. -/
inductive Origin (r : Register α) (H : Homography α) : Prop where
  | identity (eq_identity : H = Homography.identity)
  | checked (finite : H.matrix.isFinite = true)
  | present (name : String) (found : r.find? name = some H)

/-- What an operation can answer and do. -/
inductive Transition (r : Register α) : Operation α → Answer α → Effect α → Prop where
  | read {operation : Operation α} {answer : Answer α} (target : operation.target? = none)
      (h : ∀ A, answer ≠ .estimate true A) : Transition r operation answer .nothing
  | write {operation : Operation α} {name : String} {H : Homography α}
      (target : operation.target? = some name) (origin : r.Origin H) :
      Transition r operation (.matrix H.matrix) (.bind name H)
  | estimate {name : String} {H : Homography α} {data : List (Correspondence α)} {A : Matrix3 α}
      (present : r.find? name = some H)
      (found : Linear.estimate? Linear.rankTolerance data = some A) :
      Transition r (.estimate name (.ok data)) (.estimate true A) (.bind name ⟨A⟩)
  | degenerate {name : String} {data : List (Correspondence α)} {A : Matrix3 α}
      (missing : Linear.estimate? Linear.rankTolerance data = none) :
      Transition r (.estimate name (.ok data)) (.estimate false A) .nothing
  | handOut {operation : Operation α} (target : operation.target? = none) (A : Matrix3 α) :
      Transition r operation (.matrix A) (.handOut A)
  | overwrite {operation : Operation α} {a : ℕ} (target : operation.target? = none)
      (held : a ∈ r.held) (A : Matrix3 α) :
      Transition r operation (.matrix A) (.overwrite a A)

/-- An estimation finds the estimate of its data, or finds none and changes nothing. -/
theorem transition_of_estimate {name : String} {data : Result (List (Correspondence α))}
    (h : r.evaluate report (.estimate name data) = .ok (answer, effect)) :
    r.Transition (.estimate name data) answer effect := by
  simp only [evaluate, Result.bind_eq_ok] at h
  obtain ⟨H, hH, found, rfl, h⟩ := h
  unfold Homography.estimate Homography.estimate? at h
  cases hestimate : Linear.estimate? Linear.rankTolerance found with
  | none =>
    rw [hestimate] at h
    cases h
    exact .degenerate hestimate
  | some A =>
    rw [hestimate] at h
    cases h
    exact .estimate (find?_of_get hH) hestimate

/-- An estimate is the canonical scale of a matrix that counts as non-singular. -/
theorem exists_canonicalScale_of_estimate? {data : List (Correspondence α)} {A : Matrix3 α}
    (h : Linear.estimate? Linear.rankTolerance data = some A) :
    ∃ B : Matrix3 α, B.isNonSingular Matrix3.rankTolerance = true ∧ A = B.canonicalScale := by
  rw [Linear.estimate?_eq, Linear.estimateWithin?_eq_some_iff] at h
  obtain ⟨B, -, hregular, hA⟩ := h
  exact ⟨B, hregular, hA⟩

/-- Everything that an operation can answer and do. -/
theorem transition_of_evaluate (h : r.evaluate report operation = .ok (answer, effect)) :
    r.Transition operation answer effect := by
  cases operation with
  | create name matrix =>
    cases matrix with
    | none =>
      cases h
      exact .write rfl (.identity rfl)
    | some matrix =>
      simp only [evaluate, Result.bind_eq_ok] at h
      obtain ⟨_, -, H, hH, h⟩ := h
      cases h
      exact .write rfl (.checked (isFinite_of_ofTable hH))
  | set name matrix =>
    simp only [evaluate, Result.bind_eq_ok] at h
    obtain ⟨_, -, _, -, H, hH, h⟩ := h
    cases h
    exact .write rfl (.checked (isFinite_of_ofTable hH))
  | get name =>
    simp only [evaluate, Result.bind_eq_ok] at h
    obtain ⟨H, -, h⟩ := h
    cases h
    exact .handOut rfl H.matrix
  | overwrite position A =>
    simp only [evaluate, Result.bind_eq_ok] at h
    obtain ⟨a, ha, h⟩ := h
    cases h
    exact .overwrite rfl (mem_held_of_heldAddress ha) A
  | invert name target =>
    simp only [evaluate, Result.bind_eq_ok] at h
    obtain ⟨H, -, K, hK, h⟩ := h
    cases h
    exact .write rfl (.checked (isFinite_of_inverse hK))
  | copy name target =>
    simp only [evaluate, Result.bind_eq_ok] at h
    obtain ⟨H, -, K, hK, h⟩ := h
    cases h
    exact .write rfl (.checked (isFinite_of_ofMatrix hK))
  | assign name source =>
    simp only [evaluate, Result.bind_eq_ok] at h
    obtain ⟨_, -, h⟩ := h
    split at h
    · rename_i H hH
      cases h
      exact .write rfl (.present source hH)
    · cases h
  | assignForeign name family =>
    simp only [evaluate, Result.bind_eq_ok] at h
    obtain ⟨_, -, h⟩ := h
    cases h
  | estimate name data => exact transition_of_estimate h
  | apply name point =>
    simp only [evaluate, Result.bind_eq_ok] at h
    obtain ⟨_, -, _, -, _, -, h⟩ := h
    cases h
    exact .read rfl fun A hA => by cases hA
  | applyAll name points =>
    simp only [evaluate, Result.bind_eq_ok] at h
    obtain ⟨_, -, _, -, h⟩ := h
    cases h
    exact .read rfl fun A hA => by cases hA
  | minItems name =>
    simp only [evaluate, Result.bind_eq_ok] at h
    obtain ⟨_, -, h⟩ := h
    cases h
    exact .read rfl fun A hA => by cases hA
  | describe name =>
    simp only [evaluate, Result.bind_eq_ok] at h
    obtain ⟨_, -, h⟩ := h
    cases h
    exact .read rfl fun A hA => by cases hA

/-- An operation fails and changes nothing, or it answers and does what it can do. -/
theorem run_cases (report : α → Float) (r : Register α) (operation : Operation α) :
    (∃ cause, r.run report operation = (.error cause, r)) ∨
      ∃ answer effect, r.Transition operation answer effect ∧
        r.run report operation = (.ok answer, r.perform effect) := by
  unfold run
  cases h : r.evaluate report operation with
  | error cause => exact .inl ⟨cause, rfl⟩
  | ok result => exact .inr ⟨result.1, result.2, transition_of_evaluate h, rfl⟩

/-- Whatever an operation does, the arrays of homographies are apart. -/
theorem Owned.perform (h : r.Owned) (ht : r.Transition operation answer effect) :
    (r.perform effect).Owned := by
  cases ht with
  | read => exact h
  | write => exact h.bind
  | estimate => exact h.bind
  | degenerate => exact h
  | handOut => exact h.handOut
  | overwrite => exact h.overwrite

/-- What an operation does leaves the homographies alone that are not under its target. -/
theorem find?_perform (h : r.Owned) (ht : r.Transition operation answer effect) {name : String}
    (hname : operation.target? ≠ some name) : (r.perform effect).find? name = r.find? name := by
  cases ht with
  | read => rfl
  | write htarget =>
    refine find?_bind_of_ne h ?_
    rintro rfl
    exact hname htarget
  | estimate =>
    refine find?_bind_of_ne h ?_
    rintro rfl
    exact hname rfl
  | degenerate => rfl
  | handOut => exact find?_handOut h
  | overwrite _ hheld => exact find?_overwrite h hheld

/-- An estimation succeeds exactly if its homography is there and its data have an estimate. -/
theorem run_eq_estimate_iff {A : Matrix3 α} :
    (r.run report operation).1 = .ok (.estimate true A) ↔
      ∃ name data, operation = .estimate name (.ok data) ∧ (∃ H, r.find? name = some H) ∧
        Linear.estimate? Linear.rankTolerance data = some A := by
  constructor
  · intro h
    obtain ⟨cause, hrun⟩ | ⟨answer, effect, ht, hrun⟩ := run_cases report r operation
    · rw [hrun] at h
      cases h
    · rw [hrun] at h
      cases h
      cases ht with
      | read _ hanswer => exact absurd rfl (hanswer A)
      | estimate hpresent hfound => exact ⟨_, _, rfl, ⟨_, hpresent⟩, hfound⟩
  · rintro ⟨name, data, rfl, ⟨H, hH⟩, hfound⟩
    have hget : r.get name = .ok H := by
      unfold get
      rw [hH]
    have hestimate : H.estimate data = (true, ⟨A⟩) := by
      unfold Homography.estimate Homography.estimate?
      rw [hfound]
      rfl
    unfold run
    simp only [evaluate, hget, bind, Except.bind, hestimate]
    rfl

/-- An operation that does not fail puts the matrix of its answer under its target, unless it is an
estimation that finds nothing. -/
theorem find?_target {name : String} {A : Matrix3 α} (hname : operation.target? = some name)
    (h : (r.run report operation).1 = .ok (.matrix A) ∨
      (r.run report operation).1 = .ok (.estimate true A)) :
    (r.run report operation).2.find? name = some ⟨A⟩ := by
  obtain ⟨cause, hrun⟩ | ⟨answer, effect, ht, hrun⟩ := run_cases report r operation
  · rw [hrun] at h
    rcases h with h | h <;> cases h
  rw [hrun] at h ⊢
  cases ht with
  | read htarget _ =>
    rw [htarget] at hname
    cases hname
  | write htarget _ =>
    obtain rfl := Option.some.inj (htarget.symm.trans hname)
    rcases h with h | h
    · cases h
      exact find?_bind r _ _
    · cases h
  | estimate _ _ =>
    cases hname
    rcases h with h | h
    · cases h
    · cases h
      exact find?_bind r _ _
  | degenerate _ => rcases h with h | h <;> cases h
  | handOut htarget _ =>
    rw [htarget] at hname
    cases hname
  | overwrite htarget _ _ =>
    rw [htarget] at hname
    cases hname

/-- An operation leaves everything alone but the homography under its target, and this one too if
it fails or estimates nothing.  Otherwise its answer is the matrix that its target has then, and an
estimate depends on the data only. -/
structure Isolates (report : α → Float) (r : Register α) (operation : Operation α) : Prop where
  refused : ∀ cause, (r.run report operation).1 = .error cause → (r.run report operation).2 = r
  unsuccessful : ∀ A, (r.run report operation).1 = .ok (.estimate false A) →
    (r.run report operation).2 = r
  others : ∀ name, operation.target? ≠ some name →
    (r.run report operation).2.find? name = r.find? name
  target : ∀ name A, operation.target? = some name →
    (r.run report operation).1 = .ok (.matrix A) ∨
      (r.run report operation).1 = .ok (.estimate true A) →
    (r.run report operation).2.find? name = some ⟨A⟩
  estimated : ∀ A, (r.run report operation).1 = .ok (.estimate true A) ↔
    ∃ name data, operation = .estimate name (.ok data) ∧ (∃ H, r.find? name = some H) ∧
      Linear.estimate? Linear.rankTolerance data = some A

/-- An operation changes nothing but its target if the arrays are apart. -/
theorem Owned.isolates (h : r.Owned) (report : α → Float) (operation : Operation α) :
    r.Isolates report operation := by
  obtain ⟨cause, hrun⟩ | ⟨answer, effect, ht, hrun⟩ := run_cases report r operation
  · refine ⟨fun _ _ => ?_, fun _ _ => ?_, fun _ _ => ?_, fun name A => find?_target,
      fun A => run_eq_estimate_iff⟩
    · rw [hrun]
    · rw [hrun]
    · rw [hrun]
  · refine ⟨fun cause hcause => ?_, fun A hA => ?_, fun name hname => ?_,
      fun name A => find?_target, fun A => run_eq_estimate_iff⟩
    · rw [hrun] at hcause
      cases hcause
    · rw [hrun] at hA ⊢
      cases hA
      cases ht with
      | read => rfl
      | degenerate => rfl
    · rw [hrun]
      exact find?_perform h ht hname

/-- An operation leaves the arrays of homographies apart. -/
theorem Owned.run (h : r.Owned) (report : α → Float) (operation : Operation α) :
    (r.run report operation).2.Owned := by
  obtain ⟨cause, hrun⟩ | ⟨answer, effect, ht, hrun⟩ := run_cases report r operation
  · rw [hrun]
    exact h
  · rw [hrun]
    exact h.perform ht

/-- Everything that is put under a name has the property, given those that are there have it and
what is estimated from has a property of its own. -/
structure Inherited (Q : List (Correspondence α) → Prop) (P : Matrix3 α → Prop) : Prop where
  one : P Matrix3.one
  finite : ∀ {A}, A.isFinite = true → P A
  estimate : ∀ {data A}, Q data → Linear.estimate? Linear.rankTolerance data = some A → P A

section Inheritance

variable {Q : List (Correspondence α) → Prop} {P : Matrix3 α → Prop}

/-- An operation keeps a property that is inherited. -/
theorem Every.run (h : r.Every P) (hP : Inherited Q P) (howned : r.Owned) (report : α → Float)
    (hfrom : operation.From Q) : (r.run report operation).2.Every P := by
  obtain ⟨cause, hrun⟩ | ⟨answer, effect, ht, hrun⟩ := run_cases report r operation
  · rw [hrun]
    exact h
  rw [hrun]
  -- Only two of the transitions put something under a name.
  cases ht with
  | read => exact h
  | write _ horigin =>
    refine h.bind howned ?_
    cases horigin with
    | identity hidentity =>
      rw [hidentity]
      exact hP.one
    | checked hfinite => exact hP.finite hfinite
    | present name hfound => exact h name _ hfound
  | estimate _ hfound => exact h.bind howned (hP.estimate hfrom hfound)
  | degenerate => exact h
  | handOut => exact fun name H hH => h name H ((find?_handOut howned).symm.trans hH)
  | overwrite _ hheld =>
    exact fun name H hH => h name H ((find?_overwrite howned hheld).symm.trans hH)

end Inheritance

end Operations

section Sequences

variable {α : Type} [Scalar α] [Spectral α] {r : Register α}

/-- A sequence of operations leaves the arrays of homographies apart. -/
theorem Owned.runAll (h : r.Owned) (report : α → Float) (operations : List (Operation α)) :
    (r.runAll report operations).2.Owned := by
  induction operations generalizing r with
  | nil => exact h
  | cons operation rest ih => exact ih (h.run report operation)

variable {Q : List (Correspondence α) → Prop} {P : Matrix3 α → Prop}

/-- A sequence of operations keeps a property that is inherited. -/
theorem Every.runAll (h : r.Every P) (hP : Inherited Q P) (howned : r.Owned) (report : α → Float)
    {operations : List (Operation α)} (hfrom : ∀ operation ∈ operations, operation.From Q) :
    (r.runAll report operations).2.Every P := by
  induction operations generalizing r with
  | nil => exact h
  | cons operation rest ih =>
    obtain ⟨hoperation, hrest⟩ := List.forall_mem_cons.mp hfrom
    exact ih (h.run hP howned report hoperation) (howned.run report operation) hrest

/-- The register that a sequence of operations leads to from the identity under a name. -/
def after (report : α → Float) (name : String) (operations : List (Operation α)) : Register α :=
  ((start name).runAll report operations).2

/-- The last operation of a sequence acts on the register that the others lead to. -/
theorem runAll_concat (r : Register α) (report : α → Float) (operations : List (Operation α))
    (operation : Operation α) : (r.runAll report (operations ++ [operation])).2 =
      ((r.runAll report operations).2.run report operation).2 := by
  induction operations generalizing r with
  | nil => rfl
  | cons first rest ih => exact ih (r.run report first).2

variable (report : α → Float) (name : String) (operations : List (Operation α))

/-- The arrays of homographies exist and have not been handed out after any operations. -/
theorem owned_after : (after report name operations).Owned :=
  owned_empty.bind.runAll report operations

variable {operations}

/-- A property that is inherited holds of all homographies after any operations. -/
theorem every_after (hP : Inherited Q P) (hfrom : ∀ operation ∈ operations, operation.From Q) :
    (after report name operations).Every P :=
  (every_empty.bind owned_empty hP.one).runAll hP owned_empty.bind report hfrom

/-- What the matrix of a homography can be over scalars of every kind. -/
inductive Known (A : Matrix3 α) : Prop where
  | one (eq_one : A = Matrix3.one)
  | finite (finite : A.isFinite = true)
  | scaled (B : Matrix3 α) (regular : B.isNonSingular Matrix3.rankTolerance = true)
      (eq_canonicalScale : A = B.canonicalScale)

/-- What a matrix can be is inherited from any data. -/
theorem inherited_known : Inherited (fun _ => True) (Known : Matrix3 α → Prop) where
  one := .one rfl
  finite := .finite
  estimate _ h := by
    obtain ⟨B, hregular, hA⟩ := exists_canonicalScale_of_estimate? h
    exact .scaled B hregular hA

end Sequences

section Exact

/-- A matrix is not singular, of norm one, and its last entry is not negative. -/
structure IsCanonical {α : Type} [Scalar α] [Spectral α] (A : Matrix3 α) : Prop where
  regular : A.isNonSingular Matrix3.rankTolerance = true
  norm : A.norm = 1
  last : 0 ≤ A.m33

section Wide

variable [Spectral Wide] [Spectral.WideExact]

/-- An estimate is a real matrix that is not singular, in its canonical scale. -/
theorem exists_estimate? {data : List (Correspondence Wide)} {A : Matrix3 Wide}
    (h : Linear.estimate? Linear.rankTolerance data = some A) :
    ∃ B : Matrix3 ℝ, A = B.widen ∧ B.Regular Matrix3.rankTolerance ∧ B.norm = 1 ∧ 0 ≤ B.m33 := by
  obtain ⟨K, hK, rfl⟩ := exists_canonicalScale_of_estimate? h
  obtain ⟨B, rfl, hregular⟩ := Matrix3.exists_regular hK
  have hdet := hregular.det_ne_zero Matrix3.tolerance_nonneg
  refine ⟨B.canonicalScale, Matrix3.widen_canonicalScale hdet, ?_,
    Matrix3.norm_canonicalScale hdet, B.canonicalScale_m33_nonneg⟩
  obtain ⟨c, hc, hscale⟩ := Matrix3.canonicalScale_proportional hdet
  rw [hscale]
  exact hregular.scale hc

/-- An estimate is finite in exact arithmetic. -/
theorem isFinite_estimate? {data : List (Correspondence Wide)} {A : Matrix3 Wide}
    (h : Linear.estimate? Linear.rankTolerance data = some A) : A.isFinite = true := by
  obtain ⟨B, rfl, -⟩ := exists_estimate? h
  exact B.isFinite_widen

/-- An estimate is canonical in exact arithmetic. -/
theorem isCanonical_estimate? {data : List (Correspondence Wide)} {A : Matrix3 Wide}
    (h : Linear.estimate? Linear.rankTolerance data = some A) : IsCanonical A := by
  obtain ⟨B, rfl, hregular, hnorm, hlast⟩ := exists_estimate? h
  refine ⟨(Matrix3.isNonSingular_widen_iff B).mpr hregular, ?_, hlast⟩
  rw [Matrix3.widen_norm, hnorm]
  rfl

/-- To be finite is inherited from any data in exact arithmetic. -/
theorem inherited_isFinite :
    Inherited (fun _ => True) fun A : Matrix3 Wide => A.isFinite = true where
  one := Matrix3.isFinite_widen Matrix3.one
  finite h := h
  estimate _ := isFinite_estimate?

end Wide

end Exact

section Doubles

/-- Every matrix is finite in doubles, unless it has been estimated from data out of range. -/
theorem inherited_inRange [Spectral Float] (Q : List (Correspondence Float) → Prop)
    [Spectral.Accurate] : Inherited Q fun A : Matrix3 Float => A.isFinite = true ∨
      ∃ data, Q data ∧ ¬ Linear.InRange data ∧
        Linear.estimate? Linear.rankTolerance data = some A where
  one := .inl rfl
  finite h := .inl h
  estimate {data A} hdata h := by
    by_cases hrange : Linear.InRange data
    · exact .inl ((Linear.estimate?_iff_inRange h).mpr hrange).1
    · exact .inr ⟨data, hdata, hrange, h⟩

end Doubles

end Register

end Projectivity
