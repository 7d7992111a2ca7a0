import Multigrid.Decimal.Style

/-!
# The shortest decimal text that reads back

A binary64 value is written with the fewest digits that identify it: among the decimals that round
to the value, one with the fewest digits is taken, of those the nearest, and of two equally near
ones the one with the even last digit.  The reals that round to a value form an interval around
it, whose ends belong to it exactly if the significand is even.

## Main definitions

* `Decimal.roundsTo`: does a decimal round to a value?
* `Decimal.shortestDigits`: the digits and the exponent
* `Decimal.shortest`: the text
-/

namespace Multigrid.Decimal

/-- The significand and the exponent of a positive finite value in binary64. -/
structure BinaryMagnitude where
  /-- The significand. -/
  significand : Nat
  /-- The power of two. -/
  exponent : Int

/-- Is `num / den` at most `(4 * m + quarters) * 2 ^ (e - 2)`, and how do the two compare? -/
def compareToQuarters (num den : Nat) (x : BinaryMagnitude) (quarters : Int) : Ordering :=
  let e := x.exponent - 2
  compare ((num <<< (-e).toNat : Nat) : Int)
    ((4 * x.significand + quarters) * ((den <<< e.toNat : Nat) : Int))

/-- Does the decimal `num / den` round to `x`?  The interval reaches half a unit up and down, except
below a power of two, where the neighbour is only half as far away. -/
def roundsTo (x : BinaryMagnitude) (num den : Nat) : Bool :=
  let down : Int := if x.significand = 1 <<< 52 ∧ -1074 < x.exponent then -1 else -2
  let low := compareToQuarters num den x down
  let high := compareToQuarters num den x 2
  if x.significand % 2 = 0 then low != .lt && high != .gt else low == .gt && high == .lt

/-- The candidate with `count` digits: the two neighbours of the value on the grid of decimals with
that many digits, the nearer one first, and the even one first at a tie. -/
def candidate? (x : BinaryMagnitude) (f : Fraction) (e : Int) (count : Nat) : Option (Nat × Int) :=
  let power : Int := count - 1 - e
  let (n, d) := f.scaled power
  let nearest := roundedQuotient n d
  let other := if nearest = n / d then nearest + 1 else n / d
  let reads (digits : Nat) : Bool :=
    roundsTo x (digits * powerOfTen (-power).toNat) (powerOfTen power.toNat)
  if reads nearest then some (nearest, power)
  else if reads other then some (other, power)
  else none

/-- The fewest digits that read back as a non-zero value, and the power of ten by which they are
to be divided.  Seventeen digits always suffice. -/
def shortestDigits (x : BinaryMagnitude) (f : Fraction) : Nat × Int :=
  let e := f.exponent
  ((List.range 17).findSome? fun k => candidate? x f e (k + 1)).getD (f.significant 17 |>.1, 16 - e)

/-- The text of a value with the fewest digits that read back: positional from `0.0001` up to below
`10 ^ 16`, with at least one digit after the point, and with a power of ten elsewhere. -/
def shortest (x : Float) : String :=
  withSpecials x fun f =>
    match x.toModel.unpack with
    | .finite _ m q _ =>
      let (digits, power) := shortestDigits ⟨m, q⟩ f
      let text := String.ofList (Nat.toDigits 10 digits)
      let e : Int := text.length - 1 - power
      if -4 ≤ e ∧ e < 16 then
        if power ≤ 0 then
          text ++ "".pushn '0' (-power).toNat ++ ".0"
        else
          let written := withoutTrailingZeros (pointed digits power.toNat)
          if written.contains '.' then written else written ++ ".0"
      else
        withoutTrailingZeros (pointed digits (text.length - 1)) ++ exponentText e
    | _ => "0.0"

end Multigrid.Decimal
