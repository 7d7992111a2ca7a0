/-!
# Exact decimal rounding

A finite binary64 value is a fraction of natural numbers with a sign.  Every decimal text of it
starts from that fraction, so each digit comes from one exact division that is rounded once, to the
nearest integer and to the even one at a tie.

## Main definitions

* `Fraction`, `Fraction.ofFloat?`: a finite value as a signed fraction
* `roundedQuotient`: the nearest integer to a quotient
* `Fraction.exponent`: the position of the leading digit
* `Fraction.significant`: the value rounded to a number of significant digits
-/

namespace Multigrid

/-- A signed fraction; the denominator is positive. -/
structure Fraction where
  /-- Is the sign bit set? -/
  negative : Bool
  /-- The numerator of the magnitude. -/
  num : Nat
  /-- The denominator of the magnitude. -/
  den : Nat

/-- The integer nearest to `num / den`, the even one at a tie. -/
def roundedQuotient (num den : Nat) : Nat :=
  let q := num / den
  let r := num % den
  if 2 * r < den ∨ (2 * r = den ∧ q % 2 = 0) then q else q + 1

/-- A power of ten. -/
def powerOfTen (k : Nat) : Nat := Nat.pow 10 k

/-- The number of decimal digits; zero has one. -/
def digitCount (n : Nat) : Nat := (Nat.toDigits 10 n).length

namespace Fraction

/-- A finite binary64 value. -/
def ofFloat? (x : Float) : Option Fraction :=
  match x.toModel.unpack with
  | .zero sign => some ⟨sign == .negative, 0, 1⟩
  | .finite sign m e _ =>
    some ⟨sign == .negative, m <<< e.toNat, 1 <<< (-e).toNat⟩
  | _ => none

/-- The magnitude times a power of ten, as numerator and denominator. -/
def scaled (x : Fraction) (power : Int) : Nat × Nat :=
  (x.num * powerOfTen power.toNat, x.den * powerOfTen (-power).toNat)

/-- The power of ten of the leading digit of a non-zero fraction: the two digit counts give it up
to one, and one comparison decides. -/
def exponent (x : Fraction) : Int :=
  let estimate : Int := digitCount x.num - digitCount x.den
  let (n, d) := x.scaled (-estimate)
  if d ≤ n then estimate else estimate - 1

/-- The value rounded to `count` significant digits: the digits as one integer, and the power of ten
of the leading digit after rounding. -/
def significant (x : Fraction) (count : Nat) : Nat × Int :=
  if x.num = 0 then
    (0, 0)
  else
    let e := x.exponent
    let (n, d) := x.scaled (count - 1 - e)
    let digits := roundedQuotient n d
    if digits = powerOfTen count then (powerOfTen (count - 1), e + 1) else (digits, e)

end Fraction

end Multigrid
