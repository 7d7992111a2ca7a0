/-!
# From a seed to the state of a generator

A seed of any size is spread over four words of 32 bits.  Every word that enters is stirred with a
running multiplier; then the words are blended pairwise, and the digits of the seed beyond the
fourth are blended in one by one.  Eight words drawn from that pool start the generator.

## Main definitions

* `seedWords`: the digits of a seed
* `Pool.ofWords`: the pool of a seed
* `Pool.words`: the words that start a generator
-/

namespace Multigrid.Random

/-- The digits of a seed to the base `2 ^ 32`, least significant first; zero has one digit. -/
def seedWords (seed : Nat) : List UInt32 :=
  if h : seed < 4294967296 then
    [seed.toUInt32]
  else
    seed.toUInt32 :: seedWords (seed / 4294967296)
termination_by seed
decreasing_by omega

/-- Stirs a word with the running multiplier, which moves on. -/
def stir (word : UInt32) : StateM UInt32 UInt32 := fun multiplier =>
  let next := multiplier * 0x931e8875
  let word := (word ^^^ multiplier) * next
  (word ^^^ (word >>> 16), next)

/-- Blends a stirred word into another one. -/
def blend (x y : UInt32) : UInt32 :=
  let word := 0xca01f9dd * x - 0x4973f715 * y
  word ^^^ (word >>> 16)

/-- Four words of 32 bits. -/
abbrev Pool := Vector UInt32 4

namespace Pool

/-- Stirs `word` and blends it into word `target` of the pool. -/
def absorb (word : UInt32) (target : Fin 4) (pool : Pool) : StateM UInt32 Pool := do
  return pool.set target (blend (pool.get target) (← stir word))

/-- Blends every word of the pool into each of the others. -/
def mixed (pool : Pool) : StateM UInt32 Pool :=
  (List.finRange 4).foldlM (fun pool source =>
    ((List.finRange 4).filter (· ≠ source)).foldlM
      (fun pool target => absorb (pool.get source) target pool) pool) pool

/-- The pool of the digits of a seed. -/
def ofWords (words : List UInt32) : Pool :=
  let build : StateM UInt32 Pool := do
    let first ← (Vector.ofFn fun i : Fin 4 => words.getD i 0).mapM stir
    let pool ← mixed first
    (words.drop 4).foldlM (fun pool word =>
      (List.finRange 4).foldlM (fun pool target => absorb word target pool) pool) pool
  (build.run 0x43b0d7e5).1

/-- Eight words drawn from the pool, round robin. -/
def words (pool : Pool) : Vector UInt32 8 :=
  let draw (i : Fin 8) : StateM UInt32 UInt32 := fun multiplier =>
    let next := multiplier * 0x58f38ded
    let word := (pool.get ⟨i.val % 4, Nat.mod_lt _ (by decide)⟩ ^^^ multiplier) * next
    (word ^^^ (word >>> 16), next)
  (((Vector.finRange 8).mapM draw).run 0x8b51f9dd).1

end Pool

end Multigrid.Random
