import Mathlib.Data.List.Basic
import Mathlib.Data.List.Induction
import Projectivity.Proofs.Random.Selection
import Projectivity.Synthetic

/-!
# The labels of synthetic correspondences

Outliers are searched for by a loop that throws away every pair of points that is not far
enough apart, and which may need any number of pairs.  On every stream of random numbers on
which it ends, a scene has as many inliers and outliers as were asked for, the labels are
true of them, and the data given away are all of them, once each.
-/

set_option autoImplicit false

namespace Projectivity.Synthetic

variable {σ α : Type} [Scalar α]
variable (source : Source σ α) (settings : Settings α)

section Search

/-- A pair of random points. -/
def randomPair (s : σ) : (Point α × Point α) × σ :=
  let (p, s) := randomPoint source settings.extent s
  let (q, s) := randomPoint source settings.extent s
  ((p, q), s)

/-- Whether a pair of points makes an outlier. -/
def isOutlier (pair : Point α × Point α) : Bool :=
  isFar settings.distance (image settings pair.1) pair.2

/-- The loop that searches for outliers: the number of pairs that it draws, the number of outliers
that are wanted, the state before it, what it finds and the state after it. -/
inductive Finds : (pairs wanted : Nat) → σ → List (Observation α) → σ → Prop where
  | done (s : σ) : Finds 0 0 s [] s
  | keep {pairs wanted : Nat} {s t u : σ} {p q : Point α} {rest : List (Observation α)}
      (drawn : randomPair source settings s = ((p, q), t))
      (far : isOutlier settings (p, q) = true) (others : Finds pairs wanted t rest u) :
      Finds (pairs + 1) (wanted + 1) s (⟨p, some q⟩ :: rest) u
  | reject {pairs wanted : Nat} {s t u : σ} {p q : Point α} {found : List (Observation α)}
      (drawn : randomPair source settings s = ((p, q), t))
      (near : isOutlier settings (p, q) = false)
      (others : Finds pairs (wanted + 1) t found u) :
      Finds (pairs + 1) (wanted + 1) s found u

/-- The search for outliers by its first pair. -/
theorem outliersFrom_succ (draws wanted : Nat) (s : σ) :
    outliersFrom source settings (draws + 1) (wanted + 1) s =
      let ((p, q), t) := randomPair source settings s
      if isOutlier settings (p, q) = true then
        let (rest, u) := outliersFrom source settings draws wanted t
        (rest.map (⟨p, some q⟩ :: ·), u)
      else outliersFrom source settings draws (wanted + 1) t := rfl

variable {source settings}

/-- A search that succeeds finds what it wants in some number of pairs. -/
theorem exists_finds {draws wanted : Nat} {s u : σ} {found : List (Observation α)}
    (h : outliersFrom source settings draws wanted s = (some found, u)) :
    ∃ pairs ≤ draws, Finds source settings pairs wanted s found u := by
  induction draws generalizing wanted s found with
  | zero =>
    cases wanted with
    | zero =>
      cases h
      exact ⟨0, Nat.le_refl 0, .done _⟩
    | succ wanted => cases h
  | succ draws ih =>
    cases wanted with
    | zero =>
      cases h
      exact ⟨0, Nat.zero_le _, .done _⟩
    | succ wanted =>
      rcases hdrawn : randomPair source settings s with ⟨⟨p, q⟩, t⟩
      rw [outliersFrom_succ, hdrawn] at h
      simp only at h
      split at h
      · rename_i hfar
        rcases hrest : outliersFrom source settings draws wanted t with ⟨_ | rest, u'⟩
        · rw [hrest] at h
          cases h
        · rw [hrest] at h
          cases h
          obtain ⟨pairs, hpairs, hfinds⟩ := ih hrest
          exact ⟨pairs + 1, Nat.succ_le_succ hpairs, .keep hdrawn hfar hfinds⟩
      · rename_i hnear
        obtain ⟨pairs, hpairs, hfinds⟩ := ih h
        exact ⟨pairs + 1, Nat.succ_le_succ hpairs,
          .reject hdrawn (eq_false_of_ne_true hnear) hfinds⟩

/-- With enough draws the search is the loop. -/
theorem Finds.outliersFrom_eq {pairs draws wanted : Nat} {s u : σ} {found : List (Observation α)}
    (h : Finds source settings pairs wanted s found u) (hpairs : pairs ≤ draws) :
    outliersFrom source settings draws wanted s = (some found, u) := by
  induction h generalizing draws with
  | done s => cases draws <;> rfl
  | keep drawn far others ih =>
    obtain ⟨draws, rfl⟩ := Nat.exists_eq_add_of_le' (Nat.le_trans (Nat.succ_pos _) hpairs)
    rw [outliersFrom_succ, drawn]
    simp only [far, if_true, ih (Nat.le_of_succ_le_succ hpairs)]
    rfl
  | reject drawn near others ih =>
    obtain ⟨draws, rfl⟩ := Nat.exists_eq_add_of_le' (Nat.le_trans (Nat.succ_pos _) hpairs)
    rw [outliersFrom_succ, drawn]
    simp only [near, Bool.false_eq_true, if_false, ih (Nat.le_of_succ_le_succ hpairs)]

/-- The loop draws as many pairs as are just enough for the search. -/
theorem exists_finds_of_isSome {draws wanted : Nat} {s : σ}
    (hfew : (outliersFrom source settings draws wanted s).1 = none)
    (henough : (outliersFrom source settings (draws + 1) wanted s).1.isSome = true) :
    ∃ found u, Finds source settings (draws + 1) wanted s found u := by
  obtain ⟨found, hfound⟩ := Option.isSome_iff_exists.mp henough
  obtain ⟨pairs, hpairs, hfinds⟩ := exists_finds (Prod.ext hfound rfl)
  rcases Nat.lt_or_eq_of_le hpairs with hless | rfl
  · rw [hfinds.outliersFrom_eq (Nat.le_of_lt_succ hless)] at hfew
    cases hfew
  · exact ⟨found, _, hfinds⟩

/-- A search finds as many outliers as it wants. -/
theorem Finds.length_eq {pairs wanted : Nat} {s u : σ} {found : List (Observation α)}
    (h : Finds source settings pairs wanted s found u) : found.length = wanted := by
  induction h with
  | done s => rfl
  | keep _ _ _ ih => rw [List.length_cons, ih]
  | reject _ _ _ ih => exact ih

/-- No pair that is thrown away is found. -/
theorem Finds.isOutlier {pairs wanted : Nat} {s u : σ} {found : List (Observation α)}
    (h : Finds source settings pairs wanted s found u) :
    ∀ o ∈ found, ∃ q, o.destination = some q ∧ isOutlier settings (o.source, q) = true := by
  induction h with
  | done s => exact fun o ho => absurd ho List.not_mem_nil
  | keep drawn far _ ih => exact List.forall_mem_cons.mpr ⟨⟨_, rfl, far⟩, ih⟩
  | reject _ _ _ ih => exact ih

/-- An outlier is far from the image of its source. -/
theorem le_length_of_isOutlier {p q r : Point α} (h : isOutlier settings (p, q) = true)
    (himage : image settings p = some r) : settings.distance ≤ (r.sub q).length := by
  unfold isOutlier isFar at h
  rw [himage] at h
  exact of_decide_eq_true h

end Search

section Inliers

/-- As many random points are drawn as are asked for. -/
theorem length_randomPoints (extent : Extent α) (n : Nat) (s : σ) :
    (randomPoints source extent n s).1.length = n := by
  induction n generalizing s with
  | zero => rfl
  | succ n ih => exact congrArg Nat.succ (ih _)

/-- There is an inlier for each of its points. -/
theorem length_inliersFor (points : List (Point α)) (s : σ) :
    (inliersFor source settings points s).1.length = points.length := by
  induction points generalizing s with
  | nil => rfl
  | cons p rest ih => exact congrArg Nat.succ (ih _)

variable {source settings} in
/-- Without noise, the destination of an inlier is the image of its source. -/
theorem destination_of_mem_inliersFor (hnoise : ¬ 0 < settings.noise) (points : List (Point α))
    (s : σ) : ∀ o ∈ (inliersFor source settings points s).1,
      o.destination = image settings o.source := by
  induction points generalizing s with
  | nil => exact fun o ho => absurd ho List.not_mem_nil
  | cons p rest ih =>
    unfold inliersFor
    simp only [if_neg hnoise]
    exact List.forall_mem_cons.mpr ⟨rfl, ih s⟩

/-- The inliers of a scene, and the state in which the search for outliers begins. -/
def inliersOf (s : σ) : List (Observation α) × σ :=
  let (points, s) := randomPoints source settings.extent settings.inliers s
  inliersFor source settings points s

/-- There are as many inliers as are asked for. -/
theorem length_inliersOf (s : σ) : (inliersOf source settings s).1.length = settings.inliers :=
  (length_inliersFor source settings _ _).trans (length_randomPoints source _ _ s)

end Inliers

section Order

/-- The elements of a list at all its positions are the list. -/
theorem filterMap_range_getElem? {β : Type} (items : List β) :
    (List.range items.length).filterMap (fun i => items[i]?) = items := by
  induction items using List.reverseRecOn with
  | nil => rfl
  | append_singleton items x ih =>
    rw [List.length_append, List.length_singleton, List.range_succ, List.filterMap_append,
      List.filterMap_cons, List.filterMap_nil, List.getElem?_concat_length]
    refine congrArg (· ++ [x]) (Eq.trans (List.filterMap_congr fun i hi => ?_) ih)
    exact List.getElem?_append_left (List.mem_range.mp hi)

/-- A source of random numbers gives the numbers below a bound in some order, once each. -/
def Source.Permutes (source : Source σ α) : Prop :=
  ∀ (s : σ) (n : Nat), (source.permutation s n).1.Perm (List.range n)

/-- The generator gives permutations. -/
theorem generatorSource_permutes : generatorSource.Permutes := by
  intro g n
  have hperm := Random.shuffle_perm Random.interval (Random.downTo 1 (n - 1)) (Array.range n) g
  have hlist := Array.perm_iff_toList_perm.mp hperm
  rw [Array.toList_range] at hlist
  exact hlist

end Order

/-- A scene is labelled truly: it has as many inliers and outliers as were asked for, without noise
the inliers lie where the homography maps them, the outliers lie far from there, and the data are
the inliers and the outliers, in this order unless they are shuffled. -/
structure Scene.Labelled (scene : Scene α) (settings : Settings α) : Prop where
  length_inliers : scene.inliers.length = settings.inliers
  length_outliers : scene.outliers.length = settings.outliers
  exact : ¬ 0 < settings.noise → ∀ o ∈ scene.inliers, o.destination = image settings o.source
  far : ∀ o ∈ scene.outliers, ∃ q, o.destination = some q ∧
    ∀ p, image settings o.source = some p → settings.distance ≤ (p.sub q).length
  data_perm : scene.data.Perm (scene.inliers ++ scene.outliers)
  data_eq : settings.shuffles = false → scene.data = scene.inliers ++ scene.outliers

omit [Scalar α] in
/-- The data of a scene whose order is one of all positions are its observations. -/
theorem Scene.data_perm (scene : Scene α)
    (h : scene.order.Perm (List.range scene.observations.length)) :
    scene.data.Perm scene.observations :=
  (h.filterMap _).trans (List.Perm.of_eq (filterMap_range_getElem? scene.observations))

variable {source settings}

/-- The scene that is made once the search for outliers ends. -/
theorem generate_of_finds {pairs draws : Nat} {s u : σ} {outliers : List (Observation α)}
    (h : Finds source settings pairs settings.outliers (inliersOf source settings s).2 outliers u)
    (hdraws : pairs ≤ draws) :
    generate source settings draws s =
      let count := settings.inliers + settings.outliers
      let shuffled :=
        if settings.shuffles then source.permutation u count else (List.range count, u)
      (some ⟨(inliersOf source settings s).1, outliers, shuffled.1⟩, shuffled.2) := by
  have hfound := h.outliersFrom_eq hdraws
  unfold generate
  unfold inliersOf at hfound ⊢
  simp only at hfound ⊢
  rw [hfound]

/-- On every stream of random numbers on which the search for outliers ends, a scene is made and
labelled truly, and it does not depend on the number of draws that are allowed beyond those of the
search. -/
theorem generate_labelled (hsource : source.Permutes) (s : σ) {pairs : Nat} {u : σ}
    {outliers : List (Observation α)}
    (hends : Finds source settings pairs settings.outliers (inliersOf source settings s).2
      outliers u) :
    ∃ scene t, (∀ draws, pairs ≤ draws → generate source settings draws s = (some scene, t)) ∧
      scene.Labelled settings := by
  refine ⟨_, _, fun draws hdraws => generate_of_finds hends hdraws, ?_⟩
  have hlength : ((inliersOf source settings s).1 ++ outliers).length =
      settings.inliers + settings.outliers := by
    rw [List.length_append, length_inliersOf, hends.length_eq]
  refine ⟨length_inliersOf source settings s, hends.length_eq, ?_, ?_, ?_, ?_⟩
  · exact fun hnoise => destination_of_mem_inliersFor hnoise _ _
  · intro o ho
    obtain ⟨q, hq, hfar⟩ := hends.isOutlier o ho
    exact ⟨q, hq, fun p hp => le_length_of_isOutlier hfar hp⟩
  · refine Scene.data_perm _ ?_
    rw [Scene.observations, hlength]
    split
    · exact hsource u _
    · exact List.Perm.refl _
  · intro hkept
    simp only [hkept, Bool.false_eq_true, if_false, ← hlength]
    exact filterMap_range_getElem? _

/-- Two inliers and two outliers in the mild perspective view, with outliers at least 300 away. -/
def perspectiveScene : Settings Float := ⟨2, 2, reference, 0, 300, true, defaultExtent⟩

/-- With the seed six, three pairs are drawn, one of which is thrown away, and the data are
shuffled. -/
theorem generate_labelled_perspective :
    let g := Random.Generator.ofWords [6]
    generatorSource.Permutes ∧ ∃ outliers u,
      Finds generatorSource perspectiveScene 3 2 (inliersOf generatorSource perspectiveScene g).2
        outliers u ∧
      ∃ scene t, (∀ draws, 3 ≤ draws →
          generate generatorSource perspectiveScene draws g = (some scene, t)) ∧
        scene.Labelled perspectiveScene ∧ scene.order = [2, 1, 3, 0] := by
  intro g
  have htwo : (outliersFrom generatorSource perspectiveScene 2 2
      (inliersOf generatorSource perspectiveScene g).2).1 = none :=
    Option.isNone_iff_eq_none.mp (by decide +kernel)
  obtain ⟨outliers, u, hends⟩ := exists_finds_of_isSome htwo (by decide +kernel)
  obtain ⟨scene, t, hscene, hlabelled⟩ := generate_labelled generatorSource_permutes g hends
  refine ⟨generatorSource_permutes, outliers, u, hends, scene, t, hscene, hlabelled, ?_⟩
  have horder : (generate generatorSource perspectiveScene 3 g).1.map Scene.order =
      some [2, 1, 3, 0] := by decide +kernel
  rw [hscene 3 (Nat.le_refl 3)] at horder
  exact Option.some.inj horder

end Projectivity.Synthetic
