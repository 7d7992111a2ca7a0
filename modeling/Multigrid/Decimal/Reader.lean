import Multigrid.Decimal.Exact

/-!
# Reading decimal numbers

A number may be surrounded by blanks.  It is a sign, if any, before digits with at most one point
and an optional power of ten, or before `inf`, `infinity` or `nan` in any case.  Single
underscores may stand between two digits, and the decimal digits of every script count.  A number
is rounded once, to the nearest binary64 value.

## Main definitions

* `Decimal.nearest`: the value nearest to a decimal
* `Decimal.readInteger?`, `Decimal.read?`: the integer and the value of a text
-/

namespace Multigrid.Decimal

/-- The binary64 value nearest to `digits * 10 ^ power`, with a sign.  Far outside the range of the
format the answer is an infinity or zero whatever the digits are. -/
def nearest (negative : Bool) (digits : Nat) (power : Int) : Float :=
  let magnitude : Float :=
    if digits = 0 then 0
    else if 400 < digitCount digits + power then 1 / 0
    else if digitCount digits + power < -400 then 0
    else Float.ofScientific digits (power < 0) power.natAbs
  if negative then -magnitude else magnitude

/-- The code points of the digit zero of every script. -/
def zeroDigits : List Nat := [
  0x30, 0x660, 0x6f0, 0x7c0, 0x966, 0x9e6, 0xa66, 0xae6, 0xb66, 0xbe6, 0xc66, 0xce6, 0xd66, 0xde6,
  0xe50, 0xed0, 0xf20, 0x1040, 0x1090, 0x17e0, 0x1810, 0x1946, 0x19d0, 0x1a80, 0x1a90, 0x1b50,
  0x1bb0, 0x1c40, 0x1c50, 0xa620, 0xa8d0, 0xa900, 0xa9d0, 0xa9f0, 0xaa50, 0xabf0, 0xff10, 0x104a0,
  0x10d30, 0x11066, 0x110f0, 0x11136, 0x111d0, 0x112f0, 0x11450, 0x114d0, 0x11650, 0x116c0, 0x11730,
  0x118e0, 0x11950, 0x11c50, 0x11d50, 0x11da0, 0x16a60, 0x16ac0, 0x16b50, 0x1d7ce, 0x1d7d8, 0x1d7e2,
  0x1d7ec, 0x1d7f6, 0x1e140, 0x1e2f0, 0x1e950, 0x1fbf0]

/-- The value of a decimal digit of any script. -/
def digitValue? (c : Char) : Option Nat :=
  (zeroDigits.find? fun first => first ≤ c.toNat ∧ c.toNat < first + 10).map (c.toNat - ·)

/-- The characters that may surround a number. -/
def isBlank (c : Char) : Bool :=
  (9 ≤ c.toNat && c.toNat ≤ 13) || (0x2000 ≤ c.toNat && c.toNat ≤ 0x200a) ||
    c.toNat ∈ [0x20, 0x85, 0xa0, 0x1680, 0x2028, 0x2029, 0x202f, 0x205f, 0x3000]

/-- The digits at the front, with single underscores between them, and the rest. -/
def digitRun : List Char → List Nat × List Char
  | [] => ([], [])
  | c :: '_' :: next :: rest =>
    match digitValue? c, digitValue? next with
    | some d, some _ =>
      let (ds, tail) := digitRun (next :: rest)
      (d :: ds, tail)
    | some d, none => ([d], '_' :: next :: rest)
    | none, _ => ([], c :: '_' :: next :: rest)
  | c :: rest =>
    match digitValue? c with
    | some d =>
      let (ds, tail) := digitRun rest
      (d :: ds, tail)
    | none => ([], c :: rest)

/-- The number that a list of digits stands for. -/
def ofDigits (digits : List Nat) : Nat := digits.foldl (fun n d => 10 * n + d) 0

/-- A sign, if any: is it a minus, and what follows it? -/
def splitSign : List Char → Bool × List Char
  | '-' :: rest => (true, rest)
  | '+' :: rest => (false, rest)
  | rest => (false, rest)

/-- The power of ten that ends a number; none at the end of the text. -/
def readPower? : List Char → Option Int
  | [] => some 0
  | c :: rest =>
    if c = 'e' ∨ c = 'E' then
      let (negative, digits) := splitSign rest
      match digitRun digits with
      | (d :: ds, []) => some (if negative then -(ofDigits (d :: ds) : Int) else ofDigits (d :: ds))
      | _ => none
    else
      none

/-- An unsigned number as digits and a power of ten. -/
def readUnsigned? (s : List Char) : Option (Nat × Int) := do
  let (whole, rest) := digitRun s
  let (fraction, rest) := match rest with
    | '.' :: rest => digitRun rest
    | _ => ([], rest)
  if whole.isEmpty ∧ fraction.isEmpty then none
  let power ← readPower? rest
  some (ofDigits (whole ++ fraction), power - fraction.length)

/-- The characters without the blanks around them. -/
def trimmed (cs : List Char) : List Char :=
  ((cs.dropWhile isBlank).reverse.dropWhile isBlank).reverse

/-- The greatest number of digits that an integer is read from. -/
def mostDigits : Nat := 4300

/-- The integer of a text: a sign, if any, and digits. -/
def readInteger? (text : String) : Option Int :=
  let (negative, body) := splitSign (trimmed text.toList)
  match digitRun body with
  | (d :: ds, []) =>
    if mostDigits ≤ ds.length then none
    else some (if negative then -(ofDigits (d :: ds) : Int) else ofDigits (d :: ds))
  | _ => none

/-- The value of a text. -/
def read? (text : String) : Option Float :=
  let (negative, body) := splitSign (trimmed text.toList)
  let word := String.ofList (body.map Char.toLower)
  if word = "inf" ∨ word = "infinity" then some (if negative then -(1 / 0) else 1 / 0)
  else if word = "nan" then some (0 / 0)
  else (readUnsigned? body).map fun (digits, power) => nearest negative digits power

end Multigrid.Decimal
