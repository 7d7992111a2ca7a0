import Multigrid.Decimal.Exact

/-!
# Fixed, scientific and general notation

Three ways to write a binary64 value with a chosen number of digits, each correctly rounded.  An
exponent is written with its sign and at least two digits.  Infinities are `inf` and `-inf`, and a
value that is not a number is `nan`.

## Main definitions

* `Decimal.fixed`: a number of places after the point
* `Decimal.scientific`: one digit before the point and a power of ten
* `Decimal.general`: a number of significant digits without trailing zeros, in fixed notation where
  the exponent is at least -4 and below that number
-/

namespace Multigrid.Decimal

/-- Writes a value through `finite`, or as the text of an infinity or of no number. -/
def withSpecials (x : Float) (finite : Fraction → String) : String :=
  match Fraction.ofFloat? x with
  | some f => (if f.negative then "-" else "") ++ finite f
  | none => if x.isNaN then "nan" else if x < 0 then "-inf" else "inf"

/-- Digits with a point before the last `places` of them. -/
def pointed (digits places : Nat) : String :=
  let text := String.ofList (Nat.toDigits 10 digits)
  if places = 0 then
    text
  else
    let padded := "".pushn '0' (places + 1 - text.length) ++ text
    let whole := padded.length - places
    (padded.take whole).toString ++ "." ++ (padded.drop whole).toString

/-- The text without zeros at the end of its fraction. -/
def withoutTrailingZeros (text : String) : String :=
  if text.contains '.' then
    let kept := (text.toList.reverse.dropWhile (· == '0'))
    String.ofList (kept.dropWhile (· == '.')).reverse
  else
    text

/-- A power of ten: its sign and at least two digits. -/
def exponentText (e : Int) : String :=
  let text := toString e.natAbs
  "e" ++ (if e < 0 then "-" else "+") ++ (if text.length < 2 then "0" ++ text else text)

/-- `places` digits after the point. -/
def fixed (places : Nat) (x : Float) : String :=
  withSpecials x fun f =>
    let (n, d) := f.scaled places
    pointed (roundedQuotient n d) places

/-- One digit before the point, `places` after it, and the power of ten. -/
def scientific (places : Nat) (x : Float) : String :=
  withSpecials x fun f =>
    let (digits, e) := f.significant (places + 1)
    pointed digits places ++ exponentText e

/-- `count` significant digits without trailing zeros. -/
def general (count : Nat) (x : Float) : String :=
  withSpecials x fun f =>
    let (digits, e) := f.significant count
    if -4 ≤ e ∧ e < count then
      let places := (count - 1 - e).toNat
      withoutTrailingZeros (pointed digits places)
    else
      withoutTrailingZeros (pointed digits (count - 1)) ++ exponentText e

/-- The text after blanks that fill it up to `width` characters. -/
def padLeft (width : Nat) (text : String) : String :=
  "".pushn ' ' (width - text.length) ++ text

/-- The text before blanks that fill it up to `width` characters. -/
def padRight (width : Nat) (text : String) : String :=
  text.pushn ' ' (width - text.length)

end Multigrid.Decimal
