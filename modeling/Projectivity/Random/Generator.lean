import Projectivity.Random.Seed

/-!
# A generator of random words

A linear congruential generator on 128 bits whose output is a rotation of the two
halves of its state.  Words of 32 bits come in pairs from a word of 64 bits.
-/

set_option autoImplicit false

namespace Projectivity.Random

/-- The state of a generator. -/
structure Generator where
  state : BitVec 128
  increment : BitVec 128
  /-- The upper half of a word whose lower half was drawn. -/
  spare : Option UInt32

namespace Generator

/-- The factor of the congruence. -/
def multiplier : BitVec 128 := 47026247687942121848144207491837523525

/-- The next state of the congruence. -/
def advance (state increment : BitVec 128) : BitVec 128 := state * multiplier + increment

/-- The number with the given words, the lowest first, in base `2 ^ 32`. -/
def number (words : List UInt32) : Nat := words.foldr (fun w n => w.toNat + Nat.pow 2 32 * n) 0

/-- The generator of a seed. -/
def ofWords (seed : List UInt32) : Generator :=
  let words := (Pool.ofWords seed).draw 8
  let wide (position : Nat) : Nat := number ((words.drop (2 * position)).take 2)
  let start := BitVec.ofNat 128 (wide 0 * Nat.pow 2 64 + wide 1)
  let increment := BitVec.ofNat 128 ((wide 2 * Nat.pow 2 64 + wide 3) * 2 + 1)
  ⟨advance (advance 0 increment + start) increment, increment, none⟩

/-- The generator of a seed given as a value. -/
def ofValue (seed : Value) : Result Generator := (seedWords seed).map ofWords

/-- The halves of a state combined and rotated by its upper six bits. -/
def output (state : BitVec 128) : UInt64 :=
  let n := state.toNat
  let high := UInt64.ofNat (n / Nat.pow 2 64)
  let low := UInt64.ofNat n
  let w := high ^^^ low
  let turn := UInt64.ofNat (n / Nat.pow 2 122)
  (w >>> turn) ||| (w <<< ((64 - turn) % 64))

/-- The next word of 64 bits. -/
def next64 (g : Generator) : UInt64 × Generator :=
  let state := advance g.state g.increment
  (output state, { g with state })

/-- The next word of 32 bits. -/
def next32 (g : Generator) : UInt32 × Generator :=
  match g.spare with
  | some w => (w, { g with spare := none })
  | none =>
    let (w, g) := g.next64
    (w.toUInt32, { g with spare := some (w >>> 32).toUInt32 })

/-- The next number from zero to below one, with 53 random digits. -/
def nextUnit (g : Generator) : Float × Generator :=
  let (w, g) := g.next64
  ((w >>> 11).toFloat / Float.ofNat (Nat.pow 2 53), g)

end Generator

end Projectivity.Random
