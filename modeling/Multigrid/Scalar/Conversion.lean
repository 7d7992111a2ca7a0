/-!
# Conversions between number formats

Widening a binary32 value to binary64 is exact.  Narrowing rounds once, to the nearest binary32
value with ties to the even significand.  A binary64 value becomes an integer by dropping its
fraction.  All of them go through the exact decomposition of a value into sign, significand and
exponent.  The quotient of two integers is rounded once, however large they are.

## Main definitions

* `widened`, `narrowed`: between the two floating-point formats
* `integerPart`, `ceiling?`: the value without its fraction, and the next integer above
* `integerWord`: the integer part in a machine word
* `nearestQuotient`: the rounded quotient of two integers
-/

namespace Multigrid

open Float.Model (UnpackedFloat Format)
open Float.Model.Format (binary32 binary64)

/-- The decomposition of a value after rounding to the nearest value of `format`. -/
def roundedTo (format : Format) : UnpackedFloat → UnpackedFloat
  | .finite sign significand exponent _ => UnpackedFloat.round format sign significand exponent
  | other => other

/-- The binary64 value equal to a binary32 value. -/
def widened (x : Float32) : Float :=
  .ofModel (.pack (roundedTo binary64 x.toModel.unpack))

/-- The binary32 value nearest to a binary64 value. -/
def narrowed (x : Float) : Float32 :=
  .ofModel (.pack (roundedTo binary32 x.toModel.unpack))

/-- The value without its fraction, for a finite value. -/
def integerPart (x : Float) : Option Int :=
  match x.toModel.unpack with
  | .finite sign significand exponent _ =>
    some (sign.apply (if 0 ≤ exponent then significand <<< exponent.toNat
      else significand >>> (-exponent).toNat : Nat))
  | .zero _ => some 0
  | _ => none

/-- The smallest integer that is not below a finite value. -/
def ceiling? (x : Float) : Option Int :=
  (integerPart x).map fun k => if Float.ofInt k < x then k + 1 else k

/-- The integer part as a word of `bits` bits; the smallest word stands for everything that does not
fit. -/
def integerWord (bits : Nat) (x : Float) : Int :=
  let bound : Int := 1 <<< (bits - 1)
  match integerPart x with
  | some k => if -bound ≤ k ∧ k < bound then k else -bound
  | none => -bound

/-- The binary64 value nearest to `a / b`, for a positive `b`.  The quotient is taken with more bits
than the format has, and one more bit tells whether anything is left over, so the single rounding
that follows never meets a false tie. -/
def nearestQuotient (a : Int) (b : Nat) : Float :=
  let shift : Int := 64 + (b.log2 : Int) - a.natAbs.log2
  let num := a.natAbs <<< shift.toNat
  let den := b <<< (-shift).toNat
  let significand := 2 * (num / den) + if num % den = 0 then 0 else 1
  if significand = 0 then 0
  else
    let sign := if a < 0 then .negative else .positive
    .ofModel (.pack (UnpackedFloat.round binary64 sign significand (-shift - 1)))

end Multigrid
