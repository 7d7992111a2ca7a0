import Multigrid.Random.Seed

/-!
# A permuted congruential generator

The state is a word of 128 bits that moves by an affine map; an output folds the two halves of the
state onto each other and rotates the result by the leading bits of the state.  Every output of 64
bits gives two draws of 32 bits, the low half first, and the leading 24 bits of a draw give a
binary32 value from 0 up to below 1.

## Main definitions

* `Generator`, `Generator.ofWords`: the state and its start
* `Generator.draws`: the draws of 32 bits
* `uniforms`: the binary32 values
-/

namespace Multigrid.Random

/-- A generator: its state, and the increment of its affine map. -/
structure Generator where
  /-- The state. -/
  state : BitVec 128
  /-- The increment. -/
  increment : BitVec 128

namespace Generator

/-- One step of the affine map. -/
def next (g : Generator) : Generator :=
  { g with state := g.state * 0x2360ED051FC65DA44385DF649FCCF645 + g.increment }

/-- The output of a state. -/
def output (g : Generator) : BitVec 64 :=
  (g.state.extractLsb' 64 64 ^^^ g.state.extractLsb' 0 64).rotateRight (g.state >>> 122).toNat

/-- The generator of the words of a seed. -/
def ofWords (seed : List UInt32) : Generator :=
  let words := (Pool.ofWords seed).words
  let pair (low high : UInt32) : BitVec 64 := high.toBitVec ++ low.toBitVec
  let start : BitVec 128 := pair words[0] words[1] ++ pair words[2] words[3]
  let stream : BitVec 128 := pair words[4] words[5] ++ pair words[6] words[7]
  let g : Generator := ⟨0, 2 * stream + 1⟩
  { g with state := g.next.state + start }.next

/-- The draws of `count` outputs, two of each. -/
def draws (g : Generator) : Nat → List UInt32
  | 0 => []
  | count + 1 =>
    let g := g.next
    let word := g.output
    ⟨word.extractLsb' 0 32⟩ :: ⟨word.extractLsb' 32 32⟩ :: draws g count

end Generator

/-- The binary32 value of a draw: its leading 24 bits, divided by `2 ^ 24`. -/
def unitValue (draw : UInt32) : Float32 := (draw >>> 8).toFloat32 / 16777216

/-- The first `n` uniform values of the words of a seed. -/
def uniforms (seed : List UInt32) (n : Nat) : List Float32 :=
  (((Generator.ofWords seed).draws ((n + 1) / 2)).take n).map unitValue

end Multigrid.Random
