import Multigrid.Text.Printable

/-!
# Quoted text

A text is shown between two quotes.  Single quotes are used, unless the text holds a single quote
and no double one.  A backslash and the quote in use take a backslash, tab, line feed and carriage
return have letters of their own, and any other character that is not printable is written by its
code point with two, four or eight hexadecimal digits.

A text may hold one half of a surrogate pair without the other.  Such a half is no character, so an
unassigned character stands for it.

## Main definitions

* `surrogateOf?`: the half of a pair that a character stands for
* `quoteOf`: the quote in use
* `escaped`: the characters between the quotes for one character
* `quoted`: the quoted text
-/

namespace Multigrid.Text

/-- The single quote. -/
def singleQuote : Char := Char.ofNat 0x27

/-- The double quote. -/
def doubleQuote : Char := Char.ofNat 0x22

/-- The backslash. -/
def backslash : Char := Char.ofNat 0x5c

/-- The quote in use for a text. -/
def quoteOf (s : List Char) : Char :=
  if singleQuote ∈ s ∧ doubleQuote ∉ s then doubleQuote else singleQuote

/-- The distance from the halves of surrogate pairs to the characters that stand for them. -/
def surrogateShift : Nat := 0xd0000

/-- The half of a surrogate pair that a character stands for, if it does for one. -/
def surrogateOf? (c : Char) : Option Nat :=
  if 0xd800 + surrogateShift ≤ c.toNat ∧ c.toNat < 0xe000 + surrogateShift then
    some (c.toNat - surrogateShift)
  else none

/-- The character of a unit of 16 bits: itself, or the one that stands for half a pair. -/
def ofUnit (unit : Nat) : Char :=
  Char.ofNat (if 0xd800 ≤ unit ∧ unit < 0xe000 then unit + surrogateShift else unit)

/-- A number in hexadecimal with at least `width` digits. -/
def hexDigits (width code : Nat) : List Char :=
  let digits := Nat.toDigits 16 code
  List.replicate (width - digits.length) '0' ++ digits

/-- What stands for a character between two quotes `quote`. -/
def escaped (quote c : Char) : List Char :=
  if c = quote ∨ c = backslash then [backslash, c]
  else if c = '\t' then [backslash, 't']
  else if c = '\n' then [backslash, 'n']
  else if c = '\r' then [backslash, 'r']
  else if isPrintable c then [c]
  else if let some code := surrogateOf? c then backslash :: 'u' :: hexDigits 4 code
  else if c.toNat < 0x100 then backslash :: 'x' :: hexDigits 2 c.toNat
  else if c.toNat < 0x10000 then backslash :: 'u' :: hexDigits 4 c.toNat
  else backslash :: 'U' :: hexDigits 8 c.toNat

/-- A text between quotes. -/
def quoted (s : String) : String :=
  let quote := quoteOf s.toList
  String.ofList (quote :: s.toList.flatMap (escaped quote) ++ [quote])

end Multigrid.Text
