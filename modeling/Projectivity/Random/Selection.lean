import Projectivity.Random.Generator

/-!
# Random selections

Random numbers below a bound, random subsets and random orders.  A draw that would
favour some of the results is rejected and repeated.
-/

set_option autoImplicit false

namespace Projectivity.Random

/-- The number of rejections after which a draw is taken as it is.  Fewer than half of all draws
are rejected. -/
def patience : Nat := 1000

/-- A number from zero to `top`: the upper word of a product.  Draws whose lower word is below
the remainder of the number of words are rejected. -/
def below (range remainder : Nat) : Nat → Generator → Nat × Generator
  | 0, g => (0, g)
  | fuel + 1, g =>
    let (w, g) := g.next32
    let product := w.toNat * range
    let rest := product % Nat.pow 2 32
    if rest < range && decide (rest < remainder) && fuel != 0 then
      below range remainder fuel g
    else (product / Nat.pow 2 32, g)

/-- A number from zero to `top`. -/
def bounded (g : Generator) (top : Nat) : Nat × Generator :=
  if top == 0 then (0, g)
  else below (top + 1) ((Nat.pow 2 32 - 1 - top) % (top + 1)) patience g

/-- A number from zero to `top`: the lower digits of a word, unless they exceed it. -/
def masked (top mask : Nat) : Nat → Generator → Nat × Generator
  | 0, g => (0, g)
  | fuel + 1, g =>
    let (w, g) := g.next32
    let n := w.toNat % mask
    if top < n && fuel != 0 then masked top mask fuel g else (n, g)

/-- A number from zero to `top`, drawn digit by digit. -/
def interval (g : Generator) (top : Nat) : Nat × Generator :=
  if top == 0 then (0, g) else masked top (Nat.pow 2 (top.log2 + 1)) patience g

/-- Each of the given positions swapped with a random one that is not behind it. -/
def shuffle (pick : Generator → Nat → Nat × Generator) (positions : List Nat)
    (items : Array Nat) (g : Generator) : Array Nat × Generator :=
  positions.foldl (fun (out : Array Nat × Generator) i =>
    let (j, g) := pick out.2 i
    (out.1.swapIfInBounds i j, g)) (items, g)

/-- The positions from `last` down to `first`. -/
def downTo (first last : Nat) : List Nat :=
  (List.range (last + 1 - first)).map fun k => last - k

/-- Distinct numbers below `n`, one for each bound from `n - size` on: a random number up to the
bound, or the bound itself if that number was taken before. -/
def distinct (n size : Nat) (g : Generator) : Array Nat × Generator :=
  (List.range size).foldl (fun (out : Array Nat × Generator) k =>
    let top := n - size + k
    let (v, g) := bounded out.2 top
    (out.1.push (if out.1.contains v then top else v), g)) (#[], g)

/-- Whether a subset is taken from the end of a shuffled list rather than number by number. -/
def shufflesAll (n size : Nat) : Bool := decide (10000 < n) && decide (n / 50 < size)

/-- A random list of `size` different numbers below `n`. -/
def choice (g : Generator) (n size : Nat) : List Nat × Generator :=
  if shufflesAll n size then
    let (items, g) := shuffle bounded (downTo (max (n - size) 1) (n - 1)) (Array.range n) g
    (items.toList.drop (n - size), g)
  else
    let (items, g) := distinct n size g
    let (items, g) := shuffle bounded (downTo 1 (size - 1)) items g
    (items.toList, g)

/-- The numbers below `n` in a random order. -/
def permutation (g : Generator) (n : Nat) : List Nat × Generator :=
  let (items, g) := shuffle interval (downTo 1 (n - 1)) (Array.range n) g
  (items.toList, g)

/-- The positions of a random sample. -/
def sample (g : Generator) (available size : Int) : Result (List Nat) × Generator :=
  if available < size then (.error (.sampleTooLarge size available), g)
  else if size < 0 then (.error .meaningless, g)
  else
    let (positions, g) := choice g available.toNat size.toNat
    (.ok positions, g)

/-- The sampler that draws every sample of a size with the same probability. -/
def uniformSampler (g : Generator) (available size : Nat) : Result (List Nat) × Generator :=
  sample g available size

end Projectivity.Random
