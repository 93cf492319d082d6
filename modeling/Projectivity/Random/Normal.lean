import Projectivity.Random.Generator
import Projectivity.Scalar.Double

/-!
# Normal deviates

The area under the bell curve is cut into 256 parts of equal size: horizontal
strips, the lowest of which includes the tail.  A random point of a random strip is
nearly always known to lie under the curve from its first coordinate alone.
-/

set_option autoImplicit false

namespace Projectivity.Random.Normal

/-- The height of the bell curve, with height one at the origin. -/
def curve (x : Float) : Float := Float.exp (-x * x / 2)

/-- Where the tail begins. -/
def tailStart : Float := 3.6541528853610087963519472518

/-- The continued fraction `x + 1 / (x + 2 / (x + 3 / …))` cut after the given depth. -/
def tailFraction (x : Float) (depth : Nat) : Float :=
  depth.fold (fun i _ rest => x + Float.ofNat (depth - i) / rest) x

/-- The area of the tail. -/
def tailArea : Float := curve tailStart / tailFraction tailStart 200

/-- The area of each part. -/
def area : Float := tailStart * curve tailStart + tailArea

/-- The number of parts. -/
def parts : Nat := 256

/-- Zero, and behind it the right ends of the strips from the highest to the lowest. -/
def edges : List Float :=
  let ends := (List.range (parts - 2)).foldl (fun out _ =>
    match out with
    | x :: _ => Float.sqrt (-2 * Float.log (area / x + curve x)) :: out
    | [] => out) [tailStart]
  0 :: ends

/-- The strips, one entry for each of them: the lowest one first, then the others from the highest
down. -/
structure Strips where
  /-- The right end, in steps of `2 ^ -52`. -/
  widths : Array Float
  /-- The first coordinates, as integers, for which a point is known to lie under the curve. -/
  bounds : Array Nat
  /-- The height of the curve at the right end. -/
  heights : Array Float

/-- The number of steps across a strip. -/
def steps : Float := Float.ofNat (Nat.pow 2 52)

/-- The integer below a number that is not negative. -/
def floor (x : Float) : Nat := (Double.floorPart x).1.toNat

/-- The strips.  The lowest one stands for a rectangle of the same area, and the highest one has
no points that are known beforehand. -/
def strips : Strips :=
  let x := edges.toArray
  let edge (i : Nat) : Float := x.getD i 0
  let wide := area / curve tailStart
  { widths := Array.ofFn fun i : Fin parts => (if i.val = 0 then wide else edge i) / steps
    bounds := Array.ofFn fun i : Fin parts =>
      if i.val = 0 then floor (tailStart / wide * steps)
      else if i.val = 1 then 0
      else floor (edge (i - 1) / edge i * steps)
    heights := Array.ofFn fun i : Fin parts => if i.val = 0 then 1 else curve (edge i) }

/-- A deviate from the tail. -/
def tail : Nat → Generator → Float × Generator
  | 0, g => (tailStart, g)
  | fuel + 1, g =>
    let (a, g) := g.nextUnit
    let (b, g) := g.nextUnit
    let x := -(1 / tailStart) * Double.log1p (-a)
    let y := -Double.log1p (-b)
    if x * x < y + y then (tailStart + x, g) else tail fuel g

/-- A deviate with mean zero and standard deviation one.  A draw is rejected with a probability
of about one in a hundred. -/
def deviate (s : Strips) : Nat → Generator → Float × Generator
  | 0, g => (0, g)
  | fuel + 1, g =>
    let (w, g) := g.next64
    let n := w.toNat
    let strip := n % 256
    let negative := n / 256 % 2 == 1
    let position := n / 512 % Nat.pow 2 52
    let x := Float.ofNat position * s.widths.getD strip 0
    let x := if negative then -x else x
    if position < s.bounds.getD strip 0 then (x, g)
    else if strip == 0 then
      let (x, g) := tail 1000 g
      (if position / 256 % 2 == 1 then -x else x, g)
    else
      let (u, g) := g.nextUnit
      let low := s.heights.getD strip 0
      let high := s.heights.getD (strip - 1) 0
      if (high - low) * u + low < curve x then (x, g) else deviate s fuel g

/-- The next normal deviate. -/
def next (g : Generator) : Float × Generator := deviate strips 1000 g

end Projectivity.Random.Normal
