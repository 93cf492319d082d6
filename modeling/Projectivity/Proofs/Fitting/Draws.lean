import Projectivity.Fitting.Ransac

/-!
# The samples of a search

A source of samples is a stream: its draws follow each other, whatever the search does
with them.  Counted in draws, a search goes through the stream up to the first sample
that a model can be estimated from, and the iterations are blocks of draws of equal
length.
-/

set_option autoImplicit false

namespace Projectivity.Fitting

variable {μ δ α σ : Type} (draw : Sampler σ)

/-- The random state after a number of draws. -/
def drawn (available size : Nat) (s : σ) : Nat → σ
  | 0 => s
  | k + 1 => drawn available size (draw s available size).2 k

/-- The items of a draw, the draws being counted from zero. -/
def sampleAt (data : List δ) (size : Nat) (s : σ) (k : Nat) : Result (List δ) :=
  match (draw (drawn draw data.length size s k) data.length size).1 with
  | .ok positions => pick data positions
  | .error cause => .error cause

/-- The items at positions are items of the data. -/
theorem mem_of_pick {data sample : List δ} {positions : List Nat}
    (h : pick data positions = .ok sample) : ∀ d ∈ sample, d ∈ data := by
  induction positions generalizing sample with
  | nil =>
    cases h
    exact fun d hd => absurd hd List.not_mem_nil
  | cons i rest ih =>
    unfold pick at h
    rw [List.mapM_cons] at h
    cases hitem : data[i]? with
    | none =>
      rw [hitem] at h
      cases h
    | some item =>
      rw [hitem] at h
      cases hrest : pick data rest with
      | error cause =>
        unfold pick at hrest
        simp only [hrest] at h
        cases h
      | ok items =>
        have hmem := ih hrest
        unfold pick at hrest
        simp only [hrest] at h
        cases h
        intro d hd
        rcases List.mem_cons.mp hd with rfl | hd
        · exact List.mem_of_getElem? hitem
        · exact hmem d hd

/-- Draws one after the other are counted together. -/
theorem drawn_add (available size : Nat) (s : σ) (j k : Nat) :
    drawn draw available size (drawn draw available size s j) k =
      drawn draw available size s (j + k) := by
  induction j generalizing s with
  | zero => rw [Nat.zero_add, drawn]
  | succ j ih =>
    rw [Nat.succ_add]
    exact ih (draw s available size).2

/-- A sample after some draws is one of a later draw. -/
theorem sampleAt_drawn (data : List δ) (size : Nat) (s : σ) (j k : Nat) :
    sampleAt draw data size (drawn draw data.length size s j) k =
      sampleAt draw data size s (j + k) := by
  unfold sampleAt
  rw [drawn_add]

/-- The items of a sample are items of the data. -/
theorem mem_of_sampleAt {data sample : List δ} {size k : Nat} {s : σ}
    (h : sampleAt draw data size s k = .ok sample) : ∀ d ∈ sample, d ∈ data := by
  unfold sampleAt at h
  split at h
  · exact mem_of_pick h
  · cases h

/-- A source that yields every sample that is not larger than the data, at positions of the data. -/
def Serves : Prop :=
  ∀ (s : σ) {available size : Nat}, size ≤ available → ∃ positions,
    (draw s available size).1 = .ok positions ∧ ∀ i ∈ positions, i < available

/-- Items are found at all positions of the data. -/
theorem exists_pick {data : List δ} {positions : List Nat}
    (h : ∀ i ∈ positions, i < data.length) : ∃ sample, pick data positions = .ok sample := by
  induction positions with
  | nil => exact ⟨[], rfl⟩
  | cons i rest ih =>
    obtain ⟨hi, hrest⟩ := List.forall_mem_cons.mp h
    obtain ⟨sample, hsample⟩ := ih hrest
    refine ⟨data[i] :: sample, ?_⟩
    unfold pick at hsample ⊢
    rw [List.mapM_cons, List.getElem?_eq_getElem hi, hsample]
    rfl

variable {draw} in
/-- No draw from data that are enough for a sample fails. -/
theorem Serves.exists_sampleAt (h : Serves draw) {data : List δ} {size : Nat}
    (hsize : size ≤ data.length) (s : σ) (k : Nat) :
    ∃ sample, sampleAt draw data size s k = .ok sample := by
  obtain ⟨positions, hdraw, hpositions⟩ := h (drawn draw data.length size s k) hsize
  obtain ⟨sample, hsample⟩ := exists_pick hpositions
  refine ⟨sample, ?_⟩
  unfold sampleAt
  rw [hdraw]
  exact hsample

variable (family : Family μ δ α) (data : List δ) (m : μ)

/-- A draw whose sample is degenerate. -/
def Rejected (s : σ) (k : Nat) : Prop :=
  ∃ sample, sampleAt draw data family.minItems s k = .ok sample ∧ family.estimate m sample = none

/-- The draws before a given one are degenerate, and a model is estimated from its sample. -/
structure FirstAccepted (s : σ) (k : Nat) (found : μ) : Prop where
  rejected : ∀ j < k, Rejected draw family data m s j
  accepted : ∃ sample, sampleAt draw data family.minItems s k = .ok sample ∧
    family.estimate m sample = some found

variable {draw family data m}

/-- If some draw is accepted and no draw before it fails, there is a first accepted draw. -/
theorem exists_firstAccepted {s : σ} {n : Nat}
    (hdraws : ∀ j < n, ∃ sample, sampleAt draw data family.minItems s j = .ok sample)
    (haccepted : ∃ sample, sampleAt draw data family.minItems s n = .ok sample ∧
      family.estimate m sample ≠ none) :
    ∃ k ≤ n, ∃ found, FirstAccepted draw family data m s k found := by
  induction n using Nat.strongRecOn with
  | ind n ih =>
    by_cases hearlier : ∃ j < n, ∃ sample, sampleAt draw data family.minItems s j = .ok sample ∧
        family.estimate m sample ≠ none
    · obtain ⟨j, hj, hsample⟩ := hearlier
      obtain ⟨k, hk, hfound⟩ := ih j hj (fun i hi => hdraws i (Nat.lt_trans hi hj)) hsample
      exact ⟨k, Nat.le_trans hk (Nat.le_of_lt hj), hfound⟩
    · obtain ⟨sample, hsample, hsome⟩ := haccepted
      obtain ⟨found, hfound⟩ := Option.ne_none_iff_exists'.mp hsome
      refine ⟨n, Nat.le_refl n, found, ?_, sample, hsample, hfound⟩
      intro j hj
      obtain ⟨other, hother⟩ := hdraws j hj
      cases hestimate : family.estimate m other with
      | none => exact ⟨other, hother, hestimate⟩
      | some model =>
        refine absurd ⟨j, hj, other, hother, ?_⟩ hearlier
        rw [hestimate]
        exact Option.some_ne_none model

/-- The first accepted draw is nearer by as many degenerate draws as have gone by. -/
theorem FirstAccepted.later {s : σ} {j k : Nat} {found : μ}
    (h : FirstAccepted draw family data m s (j + k) found) :
    FirstAccepted draw family data m (drawn draw data.length family.minItems s j) k found := by
  constructor
  · intro i hi
    unfold Rejected
    rw [sampleAt_drawn]
    exact h.rejected (j + i) (by omega)
  · rw [sampleAt_drawn]
    exact h.accepted

/-- A degenerate sample is drawn again. -/
theorem estimateFromSample_of_rejected {s : σ} (tries : Nat) (h : Rejected draw family data m s 0) :
    estimateFromSample family draw data m (tries + 1) s =
      estimateFromSample family draw data m tries (drawn draw data.length family.minItems s 1) := by
  obtain ⟨sample, hsample, hnone⟩ := h
  simp only [sampleAt, drawn] at hsample
  rw [estimateFromSample]
  rcases hdraw : draw s data.length family.minItems with ⟨outcome, next⟩
  rw [hdraw] at hsample
  cases outcome with
  | error cause => cases hsample
  | ok positions =>
    simp only at hsample ⊢
    rw [hsample]
    simp only [hnone, drawn, hdraw]

/-- An iteration whose samples are all degenerate draws all of them and finds nothing. -/
theorem estimateFromSample_eq_none (tries : Nat) {s : σ}
    (h : ∀ j < tries, Rejected draw family data m s j) :
    estimateFromSample family draw data m tries s =
      (.ok none, drawn draw data.length family.minItems s tries) := by
  induction tries generalizing s with
  | zero => rfl
  | succ tries ih =>
    rw [estimateFromSample_of_rejected tries (h 0 (Nat.succ_pos tries)), ih]
    · rw [drawn_add, Nat.add_comm]
    · intro j hj
      unfold Rejected
      rw [sampleAt_drawn]
      exact h (1 + j) (by omega)

/-- An iteration that reaches the first accepted draw finds its model and stops drawing. -/
theorem estimateFromSample_eq_some (tries : Nat) {s : σ} {k : Nat} {found : μ}
    (h : FirstAccepted draw family data m s k found) (hk : k < tries) :
    estimateFromSample family draw data m tries s =
      (.ok (some found), drawn draw data.length family.minItems s (k + 1)) := by
  induction tries generalizing s k with
  | zero => omega
  | succ tries ih =>
    cases k with
    | zero =>
      obtain ⟨sample, hsample, hsome⟩ := h.accepted
      simp only [sampleAt, drawn] at hsample
      rw [estimateFromSample]
      rcases hdraw : draw s data.length family.minItems with ⟨outcome, next⟩
      rw [hdraw] at hsample
      cases outcome with
      | error cause => cases hsample
      | ok positions =>
        simp only at hsample ⊢
        rw [hsample]
        simp only [hsome, drawn, hdraw]
    | succ k =>
      rw [estimateFromSample_of_rejected tries (h.rejected 0 (Nat.succ_pos k))]
      rw [Nat.add_comm k 1] at h
      rw [ih h.later (by omega), drawn_add]
      congr 2
      omega

namespace Ransac

variable {τ : Type} [Scalar α] [Summation α] [Stopping.Policy τ] (settings : Settings α)

/-- A search after a number of draws and a number of iterations in which nothing was found. -/
def Search.skip (s : Search μ α τ σ) (sampler : σ) (iterations : Nat) : Search μ α τ σ :=
  { s with sampler, iterations := s.iterations + iterations }

/-- Iterations whose samples are all degenerate only draw and count.  The induction is on the
number of these iterations. -/
theorem Search.run_skip (q n : Nat) (s : Search μ α τ σ)
    (h : ∀ j < q * settings.sampleTries, Rejected draw family data s.hypothesis s.sampler j) :
    s.run family draw settings data (q + n) =
      (s.skip (drawn draw data.length family.minItems s.sampler (q * settings.sampleTries)) q).run
        family draw settings data n := by
  induction q generalizing s with
  | zero =>
    rw [Nat.zero_mul, Nat.zero_add]
    rfl
  | succ q ih =>
    have hfirst : ∀ j < settings.sampleTries,
        Rejected draw family data s.hypothesis s.sampler j := by
      intro j hj
      exact h j (Nat.lt_of_lt_of_le hj (Nat.le_mul_of_pos_left _ (Nat.succ_pos q)))
    have hnone := estimateFromSample_eq_none settings.sampleTries hfirst
    have hstep : s.step family draw settings data = (.goOn, s.skip
        (drawn draw data.length family.minItems s.sampler settings.sampleTries) 1) := by
      unfold Search.step
      simp only [hnone]
      rfl
    have hlater : ∀ j < q * settings.sampleTries, Rejected draw family data s.hypothesis
        (drawn draw data.length family.minItems s.sampler settings.sampleTries) j := by
      intro j hj
      unfold Rejected
      rw [sampleAt_drawn]
      refine h (settings.sampleTries + j) ?_
      rw [Nat.succ_mul]
      omega
    rw [Nat.succ_add, Search.run, hstep]
    simp only
    rw [ih (s.skip _ 1) hlater]
    simp only [Search.skip, drawn_add]
    congr 2
    · congr 1
      rw [Nat.succ_mul, Nat.add_comm]
    · omega

/-- A search goes through the stream of samples up to the first accepted draw, and considers the
candidate of its model in the iteration that this draw belongs to.  It ends there if the policy
says so. -/
theorem Search.run_of_stop {s next : Search μ α τ σ} {k : Nat} {found : μ} {n : Nat}
    (h : FirstAccepted draw family data s.hypothesis s.sampler k found)
    (hk : k < n * settings.sampleTries)
    (hstop : (s.skip (drawn draw data.length family.minItems s.sampler (k + 1))
      (k / settings.sampleTries + 1)).consider family
        (Candidate.of family data settings.threshold found) = (.stop, next)) :
    s.run family draw settings data n = (none, next) := by
  have htries : 0 < settings.sampleTries := Nat.pos_of_ne_zero fun hzero => by
    rw [hzero] at hk
    omega
  have hsplit := Nat.div_add_mod' k settings.sampleTries
  have hrest := Nat.mod_lt k htries
  have hiteration : k / settings.sampleTries < n := (Nat.div_lt_iff_lt_mul htries).mpr hk
  -- The draw belongs to the iteration after `q` whole ones, and is the draw `r` in it.
  generalize k / settings.sampleTries = q at *
  generalize k % settings.sampleTries = r at *
  obtain ⟨rest, rfl⟩ : ∃ rest, n = q + (rest + 1) := ⟨n - q - 1, by omega⟩
  have hskip : ∀ j < q * settings.sampleTries,
      Rejected draw family data s.hypothesis s.sampler j := by
    intro j hj
    exact h.rejected j (by omega)
  rw [Search.run_skip settings q (rest + 1) s hskip, Search.run]
  rw [← hsplit] at h
  have hsome := estimateFromSample_eq_some settings.sampleTries h.later hrest
  rw [drawn_add] at hsome
  have hstep : (s.skip (drawn draw data.length family.minItems s.sampler
      (q * settings.sampleTries)) q).step family draw settings data = (.stop, next) := by
    rw [← hstop]
    unfold Search.step Search.skip
    simp only [hsome]
    rw [← Nat.add_assoc, hsplit, Nat.add_assoc]
  rw [hstep]

end Ransac

end Projectivity.Fitting
