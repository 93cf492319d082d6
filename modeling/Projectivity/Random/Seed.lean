import Projectivity.Value.Number

/-!
# Seeds

A seed is a sequence of words of 32 bits.  The words are stirred into a pool, from
which as many words as needed are drawn to set up a generator.
-/

set_option autoImplicit false

namespace Projectivity.Random

/-- The words of a natural number, the lowest first; zero has one word. -/
def wordsOf (n : Nat) : List UInt32 :=
  let count := n.log2 / 32 + 1
  (List.range count).map fun i => UInt32.ofNat (n / Nat.pow 2 (32 * i) % Nat.pow 2 32)

/-- The words of a number that must not be negative. -/
def wordsOfInt (n : Int) : Result (List UInt32) :=
  if n < 0 then .error .meaningless else .ok (wordsOf n.toNat)

/-- The number that a text inside of a seed denotes: plain digits, or digits in base sixteen
behind a mark. -/
def numeral? (s : String) : Option Int :=
  match s.toList with
  | '0' :: 'x' :: cs => hex? cs
  | cs => if cs.all Char.isDigit then Decimal.Numeral.int? s else none
where
  hexDigit? (c : Char) : Option Nat :=
    if c.isDigit then some (c.toNat - '0'.toNat)
    else if 'a' ≤ c ∧ c ≤ 'f' then some (c.toNat - 'a'.toNat + 10)
    else if 'A' ≤ c ∧ c ≤ 'F' then some (c.toNat - 'A'.toNat + 10)
    else none
  hex? (cs : List Char) : Option Int :=
    if cs.isEmpty then none
    else (cs.mapM hexDigit?).map fun digits =>
      ((digits.foldl (fun n d => 16 * n + d) 0 : Nat) : Int)

mutual

/-- The words of one item of a list of seeds. -/
def itemWords : Value → Result (List UInt32)
  | .bool b => wordsOfInt (Value.boolInt b)
  | .int n => wordsOfInt n
  | .text s =>
    match numeral? s with
    | some n => wordsOfInt n
    | none => .error .meaningless
  | .list items => listWords items
  | _ => .error .wrongType

/-- The words of a list of seeds, one after the other. -/
def listWords : List Value → Result (List UInt32)
  | [] => .ok []
  | v :: rest => do
    let first ← itemWords v
    let others ← listWords rest
    return first ++ others

end

/-- The words of a seed: a number that is not negative, or a list of such seeds.  Without a seed
the words are those of zero. -/
def seedWords : Value → Result (List UInt32)
  | .null => .ok (wordsOf 0)
  | .bool b => wordsOfInt (Value.boolInt b)
  | .int n => wordsOfInt n
  | .list items => listWords items
  | _ => .error .wrongType

/-- A word mixed with its upper half. -/
def fold (w : UInt32) : UInt32 := w ^^^ (w >>> 16)

/-- A word hashed with a running key, and the next key. -/
def hash (key w : UInt32) : UInt32 × UInt32 :=
  let next := key * 0x931e8875
  (fold ((w ^^^ key) * next), next)

/-- Two words mixed into one. -/
def mix (x y : UInt32) : UInt32 := fold (0xca01f9dd * x - 0x4973f715 * y)

/-- Four words, and the key with which the next one is hashed. -/
structure Pool where
  words : List UInt32
  key : UInt32

namespace Pool

/-- The number of words. -/
def size : Nat := 4

/-- A further word hashed behind the others. -/
def append (p : Pool) (w : UInt32) : Pool :=
  let (hashed, key) := hash p.key w
  ⟨p.words ++ [hashed], key⟩

/-- The word at a position mixed with the hash of a further word. -/
def stir (w : UInt32) (p : Pool) (position : Nat) : Pool :=
  let (hashed, key) := hash p.key w
  ⟨p.words.modify position (mix · hashed), key⟩

/-- Every other word mixed with the hash of the word at a position. -/
def spread (p : Pool) (position : Nat) : Pool :=
  ((List.range size).filter (· != position)).foldl
    (fun p j => p.stir (p.words.getD position 0) j) p

/-- The pool of a seed. -/
def ofWords (seed : List UInt32) : Pool :=
  let first := (List.range size).foldl (fun p i => p.append (seed.getD i 0)) ⟨[], 0x43b0d7e5⟩
  let mixed := (List.range size).foldl spread first
  (seed.drop size).foldl (fun p w => (List.range size).foldl (stir w) p) mixed

/-- The given number of words drawn from a pool. -/
def draw (p : Pool) (count : Nat) : List UInt32 :=
  ((List.range count).foldl (fun (out : List UInt32 × UInt32) i =>
    let next := out.2 * 0x58f38ded
    (out.1 ++ [fold ((p.words.getD (i % size) 0 ^^^ out.2) * next)], next))
    ([], 0x8b51f9dd)).1

end Pool

end Projectivity.Random
