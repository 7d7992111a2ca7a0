import Multigrid.Scalar.Arith
import Multigrid.Scalar.Conversion

/-!
# Storage formats

A matrix stores its entries in one format, interpolation weights are computed in a second one, and
long sums are accumulated in a third.  For a floating-point matrix the weights have the format of
the entries; for an integer matrix they are binary64.  Sums are accumulated in binary64 in every
case.  For exact arithmetic all three are the rationals.

## Main definitions

* `Storage S V W`: entries of type `S`, weights of type `V`, accumulators of type `W`
-/

namespace Multigrid

/-- Entries stored as `S`, with weights in `V` and accumulators in `W`. -/
class Storage (S : Type) (V W : outParam Type) where
  /-- The entry zero. -/
  zero : S
  /-- The sum of two entries that share a position. -/
  add : S → S → S
  /-- Does the entry equal zero? -/
  isZero : S → Bool
  /-- The entry as a weight. -/
  value : S → V
  /-- The entry as an accumulator. -/
  widen : S → W
  /-- The magnitude of the entry, as an accumulator. -/
  magnitude : S → W
  /-- An accumulator as an entry: rounded to a floating-point format, or without its fraction. -/
  narrow : W → S

instance : Storage Float Float Float where
  zero := 0
  add x y := x + y
  isZero x := x == 0
  value x := x
  widen x := x
  magnitude x := Arith.magnitude x
  narrow x := x

instance : Storage Float32 Float32 Float where
  zero := 0
  add x y := x + y
  isZero x := x == 0
  value x := x
  widen x := widened x
  magnitude x := Arith.magnitude (widened x)
  narrow x := narrowed x

/-- Exact arithmetic. -/
instance : Storage Rat Rat Rat where
  zero := 0
  add x y := x + y
  isZero x := x == 0
  value x := x
  widen x := x
  magnitude x := Arith.magnitude x
  narrow x := x

/-- 64-bit integers; sums and negation wrap, so the magnitude of the smallest word is that word. -/
instance : Storage Int64 Float Float where
  zero := 0
  add x y := x + y
  isZero x := x == 0
  value x := Float.ofInt x.toInt
  widen x := Float.ofInt x.toInt
  magnitude x := Float.ofInt (if x < 0 then -x else x).toInt
  narrow x := Int64.ofInt (integerWord 64 x)

/-- 32-bit integers; sums and negation wrap, so the magnitude of the smallest word is that word. -/
instance : Storage Int32 Float Float where
  zero := 0
  add x y := x + y
  isZero x := x == 0
  value x := Float.ofInt x.toInt
  widen x := Float.ofInt x.toInt
  magnitude x := Float.ofInt (if x < 0 then -x else x).toInt
  narrow x := Int32.ofInt (integerWord 32 x)

/-- 16-bit integers, which take the low half of a 32-bit word; sums and negation wrap. -/
instance : Storage Int16 Float Float where
  zero := 0
  add x y := x + y
  isZero x := x == 0
  value x := Float.ofInt x.toInt
  widen x := Float.ofInt x.toInt
  magnitude x := Float.ofInt (if x < 0 then -x else x).toInt
  narrow x := Int16.ofInt (integerWord 32 x)

end Multigrid
