import Projectivity.Homography.Projection
import Projectivity.Random.Normal
import Projectivity.Random.Selection

/-!
# Synthetic correspondences

Random correspondences under a known homography: inliers with or without noise, and
outliers whose destination is far from where it should be.
-/

set_option autoImplicit false

namespace Projectivity.Synthetic

/-- A source of random numbers. -/
structure Source (σ α : Type) where
  /-- A number from zero to below one. -/
  unit : σ → α × σ
  /-- A normal deviate with mean zero and standard deviation one. -/
  normal : σ → α × σ
  /-- The numbers below a bound in some order. -/
  permutation : σ → Nat → List Nat × σ

/-- A source point and the point that is observed for it; nothing is observed for a source that
is mapped to infinity. -/
structure Observation (α : Type) where
  source : Point α
  destination : Option (Point α)

/-- Observations with their labels. -/
structure Scene (α : Type) where
  inliers : List (Observation α)
  outliers : List (Observation α)
  /-- The positions of the observations in the order in which they are given away. -/
  order : List Nat

namespace Scene

variable {α : Type}

/-- The inliers and behind them the outliers. -/
def observations (s : Scene α) : List (Observation α) := s.inliers ++ s.outliers

/-- The observations in the order in which they are given away. -/
def data (s : Scene α) : List (Observation α) := s.order.filterMap fun i => s.observations[i]?

end Scene

variable {σ α : Type} [Scalar α]

/-- The size of an image. -/
structure Extent (α : Type) where
  width : α
  height : α

/-- How observations are made. -/
structure Settings (α : Type) where
  inliers : Nat
  outliers : Nat
  homography : Matrix3 α
  /-- The standard deviation of the noise in each coordinate of an inlier. -/
  noise : α
  /-- The least distance of an outlier from the image of its source. -/
  distance : α
  shuffles : Bool
  extent : Extent α

/-- A random point of an image. -/
def randomPoint (source : Source σ α) (extent : Extent α) (s : σ) : Point α × σ :=
  let (x, s) := source.unit s
  let (y, s) := source.unit s
  (⟨0 + extent.width * x, 0 + extent.height * y⟩, s)

/-- Random points of an image. -/
def randomPoints (source : Source σ α) (extent : Extent α) : Nat → σ → List (Point α) × σ
  | 0, s => ([], s)
  | n + 1, s =>
    let (p, s) := randomPoint source extent s
    let (rest, s) := randomPoints source extent n s
    (p :: rest, s)

/-- The image of a point under the homography of a scene. -/
def image (settings : Settings α) (p : Point α) : Option (Point α) :=
  settings.homography.project? Matrix3.infinityTolerance p

/-- A point moved by noise. -/
def disturb (source : Source σ α) (noise : α) (p : Option (Point α)) (s : σ) :
    Option (Point α) × σ :=
  let (a, s) := source.normal s
  let (b, s) := source.normal s
  (p.map fun p => ⟨p.x + (0 + noise * a), p.y + (0 + noise * b)⟩, s)

/-- The inliers for a list of source points. -/
def inliersFor (source : Source σ α) (settings : Settings α) :
    List (Point α) → σ → List (Observation α) × σ
  | [], s => ([], s)
  | p :: rest, s =>
    let (q, s) :=
      if 0 < settings.noise then disturb source settings.noise (image settings p) s
      else (image settings p, s)
    let (others, s) := inliersFor source settings rest s
    (⟨p, q⟩ :: others, s)

/-- Whether a point is far enough from an image to be an outlier.  An image at infinity is far from
every point, if the distance can be compared at all. -/
def isFar (distance : α) (image : Option (Point α)) (q : Point α) : Bool :=
  match image with
  | some p => decide (distance ≤ (p.sub q).length)
  | none => decide (distance ≤ distance)

/-- Outliers, drawn pair by pair; a pair that is not far enough apart is thrown away.  There are
none if the draws are used up before the last of them is found. -/
def outliersFrom (source : Source σ α) (settings : Settings α) :
    (draws wanted : Nat) → σ → Option (List (Observation α)) × σ
  | _, 0, s => (some [], s)
  | 0, _ + 1, s => (none, s)
  | draws + 1, wanted + 1, s =>
    let (p, s) := randomPoint source settings.extent s
    let (q, s) := randomPoint source settings.extent s
    if isFar settings.distance (image settings p) q then
      let (rest, s) := outliersFrom source settings draws wanted s
      (rest.map (⟨p, some q⟩ :: ·), s)
    else outliersFrom source settings draws (wanted + 1) s

/-- A scene with the given settings, unless the given number of draws is too small for its
outliers. -/
def generate (source : Source σ α) (settings : Settings α) (draws : Nat) (s : σ) :
    Option (Scene α) × σ :=
  let (points, s) := randomPoints source settings.extent settings.inliers s
  let (inliers, s) := inliersFor source settings points s
  match outliersFrom source settings draws settings.outliers s with
  | (none, s) => (none, s)
  | (some outliers, s) =>
    let count := settings.inliers + settings.outliers
    let (order, s) :=
      if settings.shuffles then source.permutation s count else (List.range count, s)
    (some ⟨inliers, outliers, order⟩, s)

/-- The random numbers of a generator. -/
def generatorSource : Source Random.Generator Float where
  unit := Random.Generator.nextUnit
  normal := Random.Normal.next
  permutation := Random.permutation

/-- An image has to have a finite size without a sign. -/
def Extent.check (e : Extent Float) : Result Unit :=
  if !e.width.isFinite || !e.height.isFinite then .error .overflow
  else if e.width < 0 || e.height < 0 then .error .meaningless
  else .ok ()

/-- The mild perspective view that is used where no homography is given. -/
def reference : Matrix3 Float :=
  ⟨1.05, 0.08, 12, -0.04, 0.97, -7.5, 2.0e-4, -1.0e-4, 1⟩

/-- The size of an image where none is given. -/
def defaultExtent : Extent Float := ⟨640, 480⟩

/-- The number of draws that are made in search of outliers. -/
def patience : Nat := 10000000

end Projectivity.Synthetic
