import Projectivity.Matrix.Basic
import Projectivity.Proofs.Homography.Moderate

/-!
# Estimates stay in the range of doubles

An estimate is a solution in normalized coordinates between two similarities.  If these
normalize moderate points, no entry of the product is too large to be squared.  If all
entries were too small to be squared, so would have been all entries of the solution,
which has length one.
-/

set_option autoImplicit false

namespace Projectivity

open Double

namespace Matrix3

section Entries

variable {α : Type} {A : Matrix3 α} {P : α → Prop}

/-- Every entry has a property. -/
theorem forall_mem_entries : (∀ x ∈ A.entries, P x) ↔
    (P A.m11 ∧ P A.m12 ∧ P A.m13) ∧ (P A.m21 ∧ P A.m22 ∧ P A.m23) ∧ P A.m31 ∧ P A.m32 ∧ P A.m33 := by
  simp only [entries, List.forall_mem_cons, List.not_mem_nil, false_implies, implies_true, and_true,
    and_assoc]

end Entries

variable {A B : Matrix3 Float}

/-- A matrix is finite exactly if its entries are. -/
theorem isFinite_iff : A.isFinite = true ↔ ∀ x ∈ A.entries, x.isFinite = true := List.all_eq_true

/-- The factors of a finite product are finite. -/
theorem isFinite_factors (h : (A.mul B).isFinite = true) :
    A.isFinite = true ∧ B.isFinite = true := by
  have hentry : ∀ {a b c x y z : Float}, (a * x + b * y + c * z).isFinite = true →
      (a.isFinite = true ∧ b.isFinite = true ∧ c.isFinite = true) ∧
        x.isFinite = true ∧ y.isFinite = true ∧ z.isFinite = true := fun h => by
    obtain ⟨hsum, hlast⟩ := isFinite_of_add h
    obtain ⟨hfirst, hsecond⟩ := isFinite_of_add hsum
    obtain ⟨ha, hx⟩ := isFinite_of_mul hfirst
    obtain ⟨hb, hy⟩ := isFinite_of_mul hsecond
    obtain ⟨hc, hz⟩ := isFinite_of_mul hlast
    exact ⟨⟨ha, hb, hc⟩, hx, hy, hz⟩
  rw [isFinite_iff, forall_mem_entries] at h
  obtain ⟨⟨h11, h12, h13⟩, ⟨h21, -, -⟩, h31, -, -⟩ := h
  obtain ⟨hrow, hx1, hy1, hz1⟩ := hentry h11
  obtain ⟨-, hx2, hy2, hz2⟩ := hentry h12
  obtain ⟨-, hx3, hy3, hz3⟩ := hentry h13
  rw [isFinite_iff, isFinite_iff, forall_mem_entries, forall_mem_entries]
  exact ⟨⟨hrow, (hentry h21).1, (hentry h31).1⟩, ⟨hx1, hx2, hx3⟩, ⟨hy1, hy2, hy3⟩, hz1, hz2, hz3⟩

/-- The entries of a product are bounded by bounds of the entries of its factors. -/
theorem within_mul {j k : ℕ} (hA : ∀ x ∈ A.entries, Within j x) (hB : ∀ x ∈ B.entries, Within k x)
    (hjk : j + k + 2 ≤ 1023) : ∀ x ∈ (A.mul B).entries, Within (j + k + 2) x := by
  have hentry : ∀ {a b c x y z : Float}, Within j a ∧ Within j b ∧ Within j c → Within k x →
      Within k y → Within k z → Within (j + k + 2) (a * x + b * y + c * z) := by
    rintro a b c x y z ⟨ha, hb, hc⟩ hx hy hz
    have hsum := (ha.mul hx (by omega)).add (hb.mul hy (by omega)) (by omega)
    exact hsum.add ((hc.mul hz (by omega)).mono (by omega)) (by omega)
  rw [forall_mem_entries] at hA hB ⊢
  obtain ⟨hA1, hA2, hA3⟩ := hA
  obtain ⟨⟨h11, h12, h13⟩, ⟨h21, h22, h23⟩, h31, h32, h33⟩ := hB
  exact ⟨⟨hentry hA1 h11 h21 h31, hentry hA1 h12 h22 h32, hentry hA1 h13 h23 h33⟩,
    ⟨hentry hA2 h11 h21 h31, hentry hA2 h12 h22 h32, hentry hA2 h13 h23 h33⟩,
    hentry hA3 h11 h21 h31, hentry hA3 h12 h22 h32, hentry hA3 h13 h23 h33⟩

end Matrix3

namespace Double

section Small

/-- A double is finite, and smaller than a power of two in size. -/
structure Small (k : ℤ) (x : Float) : Prop where
  finite : x.isFinite = true
  lt : |number x| < 2 ^ k

variable {x y z : Float} {j k : ℤ}

/-- What is small is small for a larger bound. -/
theorem Small.mono (h : Small j x) (hjk : j ≤ k) : Small k x :=
  ⟨h.finite, h.lt.trans_le (zpow_le_zpow_right₀ one_le_two hjk)⟩

/-- What is rounded to something small has been small. -/
theorem Small.exact_lt {q : ℚ} (h : Small k x) (hx : IsNearestTo q x) (hk : -1074 ≤ k)
    (hk' : k ≤ 1023) : |q| < 2 ^ k := by
  by_contra! hge
  exact absurd (hx.le_abs_number hk (by omega) hge) (not_le.mpr h.lt)

/-- What is small is rounded to something small. -/
theorem IsNearestTo.small {q : ℚ} (hx : IsNearestTo q x) (hk : -1074 ≤ k) (hk' : k ≤ 1022)
    (hq : |q| < 2 ^ k) : Small (k + 1) x :=
  ⟨hx.isFinite hk (by omega) hq.le,
    (hx.abs_number_le hk hq.le).trans_lt (zpow_lt_zpow_right₀ one_lt_two (by omega))⟩

/-- What is small with a zero added to it was small. -/
theorem Small.of_add_zero (h : Small k (x + z)) (hz : IsZero z) : Small k x := by
  have hx := (isFinite_of_add h.finite).1
  exact ⟨hx, (number_add_zero hx hz).2 ▸ h.lt⟩

/-- What is small when it is added to a zero was small. -/
theorem Small.of_zero_add (h : Small k (z + x)) (hz : IsZero z) : Small k x := by
  have hx := (isFinite_of_add h.finite).2
  exact ⟨hx, (number_zero_add hz hx).2 ▸ h.lt⟩

/-- A sum of two small terms is small. -/
theorem Small.add (hx : Small k x) (hy : Small k y) (hk : -1074 ≤ k) (hk' : k ≤ 1020) :
    Small (k + 2) (x + y) := by
  have hsum := (isNearestTo_add hx.finite hy.finite).small (k := k + 1) (by omega) (by omega) ?_
  · rwa [add_assoc] at hsum
  · rw [two_zpow_add, zpow_one, mul_two]
    exact (abs_add_le _ _).trans_lt (add_lt_add hx.lt hy.lt)

/-- A product with a small factor is small. -/
theorem Small.mul {l : ℕ} (hx : Within l x) (hy : Small k y) (hk : -1074 ≤ l + k)
    (hk' : l + k ≤ 1022) : Small (l + k + 1) (x * y) := by
  refine (isNearestTo_mul hx.finite hy.finite).small hk hk' ?_
  rw [abs_mul, two_zpow_add, zpow_natCast]
  exact mul_lt_mul' hx.le hy.lt (abs_nonneg _) (by positivity)

/-- If a sum and its second term are small, so is the first one. -/
theorem Small.of_add (h : Small k (x + y)) (hy : Small k y) (hk : -1074 ≤ k) (hk' : k ≤ 1023) :
    Small (k + 1) x := by
  obtain ⟨hx, -⟩ := isFinite_of_add h.finite
  refine ⟨hx, ?_⟩
  have hexact := h.exact_lt (isNearestTo_add hx hy.finite) hk hk'
  have hsub := abs_sub (number x + number y) (number y)
  rw [add_sub_cancel_right] at hsub
  rw [two_zpow_add, zpow_one]
  linarith [hy.lt]

/-- If a sum and its first term are small, so is the second one. -/
theorem Small.of_add_left (h : Small k (x + y)) (hx : Small k x) (hk : -1074 ≤ k)
    (hk' : k ≤ 1023) : Small (k + 1) y := by
  obtain ⟨-, hy⟩ := isFinite_of_add h.finite
  refine ⟨hy, ?_⟩
  have hexact := h.exact_lt (isNearestTo_add hx.finite hy) hk hk'
  have hsub := abs_sub (number x + number y) (number x)
  rw [add_sub_cancel_left] at hsub
  rw [two_zpow_add, zpow_one]
  linarith [hx.lt]

/-- If a product is small and its second factor is not, the first one is. -/
theorem Small.of_mul (h : Small k (x * y)) (hge : 2 ^ j ≤ |number y|) (hk : -1074 ≤ k)
    (hk' : k ≤ 1023) : Small (k - j) x := by
  obtain ⟨hx, hy⟩ := isFinite_of_mul h.finite
  refine ⟨hx, ?_⟩
  have hexact := h.exact_lt (isNearestTo_mul hx hy) hk hk'
  rw [abs_mul] at hexact
  by_contra! hlarge
  refine absurd hexact (not_lt.mpr ?_)
  calc (2 : ℚ) ^ k = 2 ^ (k - j) * 2 ^ j := by rw [← two_zpow_add, sub_add_cancel]
    _ ≤ |number x| * |number y| := mul_le_mul hlarge hge (two_zpow_pos j).le (abs_nonneg _)

/-- If a product is small and its first factor is not, the second one is. -/
theorem Small.of_mul_left (h : Small k (x * y)) (hge : 2 ^ j ≤ |number x|) (hk : -1074 ≤ k)
    (hk' : k ≤ 1023) : Small (k - j) y := by
  obtain ⟨hx, hy⟩ := isFinite_of_mul h.finite
  refine ⟨hy, ?_⟩
  have hexact := h.exact_lt (isNearestTo_mul hx hy) hk hk'
  rw [abs_mul] at hexact
  by_contra! hlarge
  refine absurd hexact (not_lt.mpr ?_)
  calc (2 : ℚ) ^ k = 2 ^ j * 2 ^ (k - j) := by rw [← two_zpow_add, add_sub_cancel]
    _ ≤ |number x| * |number y| := mul_le_mul hge hlarge (two_zpow_pos _).le (abs_nonneg _)

end Small

end Double

namespace Normalization

variable {scale : Float} {center : Point Float}

/-- If a scale leaves a number small, so does a translation by a moderate center. -/
theorem small_translation (h : Moderate scale center) {a x : Float} (ha : Small (-537) (a * scale))
    (hx : Within 200 x) : Small (-334) (a * (-scale * x)) := by
  obtain ⟨hfinite, hle⟩ := translation_bounds h hx
  obtain ⟨haf, -⟩ := isFinite_of_mul ha.finite
  have hexact := ha.exact_lt (isNearestTo_mul haf h.finite) (by norm_num) (by norm_num)
  rw [abs_mul, abs_of_pos h.between.pos] at hexact
  refine (isNearestTo_mul haf hfinite).small (k := -335) (by norm_num) (by norm_num) ?_
  calc |number a * number (-scale * x)| = |number a| * |number (-scale * x)| := abs_mul _ _
    _ ≤ |number a| * (2 ^ 202 * number scale) := mul_le_mul_of_nonneg_left hle (abs_nonneg _)
    _ = 2 ^ 202 * (|number a| * number scale) := by ring
    _ < 2 ^ 202 * 2 ^ (-537 : ℤ) := mul_lt_mul_of_pos_left hexact (by norm_num)
    _ = 2 ^ (-335 : ℤ) := by rw [← zpow_natCast, ← two_zpow_add]; norm_num

/-- If all entries that a similarity makes of a row are small, so are the entries of the row. -/
theorem small_of_row (h : Moderate scale center) {a b c : Float}
    (h1 : Small (-537) (a * scale + b * 0 + c * 0)) (h2 : Small (-537) (a * 0 + b * scale + c * 0))
    (h3 : Small (-537) (a * (-scale * center.x) + b * (-scale * center.y) + c * 1)) :
    Small (-331) a ∧ Small (-331) b ∧ Small (-331) c := by
  have hscale : 2 ^ (-202 : ℤ) ≤ |number scale| := h.between.ge.trans (le_abs_self _)
  have hzero : ∀ {x y : Float}, (x + y * 0).isFinite = true → IsZero (y * 0) := fun hsum =>
    IsZero.mul_right (isFinite_of_mul (isFinite_of_add hsum).2).1 isZero_zero
  have hc : IsZero (c * 0) := hzero h1.finite
  have ha : Small (-537) (a * scale) :=
    (h1.of_add_zero hc).of_add_zero (hzero (h1.of_add_zero hc).finite)
  have hb : Small (-537) (b * scale) :=
    (h2.of_add_zero hc).of_zero_add (IsZero.mul_right (isFinite_of_mul ha.finite).1 isZero_zero)
  have hsum : Small (-332) (a * (-scale * center.x) + b * (-scale * center.y)) :=
    (small_translation h ha h.x_within).add (small_translation h hb h.y_within) (by norm_num)
      (by norm_num)
  have hlast : Small (-331) (c * 1) :=
    (h3.mono (by norm_num)).of_add_left hsum (by norm_num) (by norm_num)
  have hone : (2 : ℚ) ^ (0 : ℤ) ≤ |number 1| := by rw [number_one, abs_one, zpow_zero]
  exact ⟨(ha.of_mul hscale (by norm_num) (by norm_num)).mono (by norm_num),
    (hb.of_mul hscale (by norm_num) (by norm_num)).mono (by norm_num),
    hlast.of_mul hone (by norm_num) (by norm_num)⟩

variable {t : ℚ} {A : Matrix3 Float}

/-- If all entries that the inverse of a similarity makes of a column are small, so are the entries
of the column. -/
theorem small_of_column (hA : Denormalizing t A) (ht : Between 202 41 t) {a b c : Float}
    (h1 : Small (-331) (A.m11 * a + A.m12 * b + A.m13 * c))
    (h2 : Small (-331) (A.m21 * a + A.m22 * b + A.m23 * c))
    (h3 : Small (-331) (A.m31 * a + A.m32 * b + A.m33 * c)) :
    Small (-2) a ∧ Small (-2) b ∧ Small (-2) c := by
  obtain ⟨hpart, hcf⟩ := isFinite_of_add h3.finite
  obtain ⟨haf, hbf⟩ := isFinite_of_add hpart
  have hzero : IsZero (A.m31 * a + A.m32 * b) :=
    (hA.m31.mul_left (isFinite_of_mul haf).2).add (hA.m32.mul_left (isFinite_of_mul hbf).2)
  have hc : Small (-321) c :=
    (h3.of_zero_add hzero).of_mul_left (hA.m33.two_zpow_le (n := 0) (by norm_num)) (by norm_num)
      (by norm_num)
  have hdiagonal : 2 ^ (-51 : ℤ) ≤ |number A.m11| ∧ 2 ^ (-51 : ℤ) ≤ |number A.m22| :=
    ⟨hA.m11.two_zpow_le (n := -41) ht.inv.ge, hA.m22.two_zpow_le (n := -41) ht.inv.ge⟩
  have ha : Small (-109) (A.m11 * a) :=
    ((h1.mono (by norm_num)).of_add (Small.mul hA.m13 hc (by norm_num) (by norm_num))
      (by norm_num) (by norm_num)).of_add_zero (hA.m12.mul_left (isFinite_of_mul hbf).2)
  have hb : Small (-109) (A.m22 * b) :=
    ((h2.mono (by norm_num)).of_add (Small.mul hA.m23 hc (by norm_num) (by norm_num))
      (by norm_num) (by norm_num)).of_zero_add (hA.m21.mul_left (isFinite_of_mul haf).2)
  exact ⟨(ha.of_mul_left hdiagonal.1 (by norm_num) (by norm_num)).mono (by norm_num),
    (hb.of_mul_left hdiagonal.2 (by norm_num) (by norm_num)).mono (by norm_num),
    hc.mono (by norm_num)⟩

/-- If all entries of a denormalized solution are small, so are the entries of the solution. -/
theorem small_of_denormalized (hA : Denormalizing t A) (ht : Between 202 41 t)
    (h : Moderate scale center) {G : Matrix3 Float}
    (hsmall : ∀ x ∈ ((A.mul G).mul (similarity scale center)).entries, Small (-537) x) :
    ∀ x ∈ G.entries, Small (-2) x := by
  rw [Matrix3.forall_mem_entries] at hsmall ⊢
  obtain ⟨⟨h11, h12, h13⟩, ⟨h21, h22, h23⟩, h31, h32, h33⟩ := hsmall
  obtain ⟨hm11, hm12, hm13⟩ := small_of_row h h11 h12 h13
  obtain ⟨hm21, hm22, hm23⟩ := small_of_row h h21 h22 h23
  obtain ⟨hm31, hm32, hm33⟩ := small_of_row h h31 h32 h33
  obtain ⟨hg11, hg21, hg31⟩ := small_of_column hA ht hm11 hm21 hm31
  obtain ⟨hg12, hg22, hg32⟩ := small_of_column hA ht hm12 hm22 hm32
  obtain ⟨hg13, hg23, hg33⟩ := small_of_column hA ht hm13 hm23 hm33
  exact ⟨⟨hg11, hg12, hg13⟩, ⟨hg21, hg22, hg23⟩, hg31, hg32, hg33⟩

/-- The entries of a denormalized solution are bounded. -/
theorem within_denormalized (hA : Denormalizing t A) (ht : Between 202 41 t)
    (h : Moderate scale center) {G : Matrix3 Float} (hG : ∀ x ∈ G.entries, Within 1 x) :
    ∀ x ∈ ((A.mul G).mul (similarity scale center)).entries, Within 458 x := by
  have hzero : ∀ {x : Float}, IsZero x → Within 212 x := fun hx =>
    ⟨hx.finite, by rw [hx.number_eq, abs_zero]; positivity⟩
  have hdiagonal : ∀ {x : Float}, Near 10 t⁻¹ x → Within 212 x := fun hx => hx.within ht.inv
  have hinverse : ∀ x ∈ A.entries, Within 212 x := by
    rw [Matrix3.forall_mem_entries]
    exact ⟨⟨hdiagonal hA.m11, hzero hA.m12, hA.m13.mono (by norm_num)⟩,
      ⟨hzero hA.m21, hdiagonal hA.m22, hA.m23.mono (by norm_num)⟩, hzero hA.m31, hzero hA.m32,
      (hA.m33.within (l := 0) (h := 0) ⟨by norm_num, by norm_num⟩).mono (by norm_num)⟩
  have hscale : Within 41 scale :=
    ⟨h.finite, by rw [abs_of_pos h.between.pos]; exact h.between.le⟩
  have hsimilarity : ∀ x ∈ (similarity scale center).entries, Within 241 x := by
    rw [Matrix3.forall_mem_entries]
    exact ⟨⟨hscale.mono (by norm_num), within_zero, hscale.neg.mul h.x_within (by norm_num)⟩,
      ⟨within_zero, hscale.mono (by norm_num), hscale.neg.mul h.y_within (by norm_num)⟩,
      within_zero, within_zero, within_one⟩
  exact Matrix3.within_mul (Matrix3.within_mul hinverse hG (by norm_num)) hsimilarity (by norm_num)

end Normalization

end Projectivity
