import Multigrid.Decimal.Reader
import Multigrid.Decimal.Shortest
import Multigrid.Decimal.Style
import Multigrid.Fault
import Multigrid.Scalar.Conversion
import Multigrid.Text.Quoted

/-!
# Loosely typed values

Diagnostics are kept under free names, and a name may hold a number, a flag, a text or nothing.
Such a value is written for display, read as a number where a number is wanted, and tested for
being present.  In arithmetic a flag counts as one or zero, and integers are exact.

## Main definitions

* `Datum`: the values
* `Datum.quoted`, `Datum.shown`: the text of a value, and the text with the outermost quotes left
  out
* `Datum.toReal?`: the number that a value is displayed as
* `Datum.toInteger`, `Datum.toNumber`, `Datum.toWhole`: a value where a number is wanted
* `checkRoom`, `Datum.toSlots`: numbers of places
* `Datum.isPositive`, `Datum.isBelowOne`, `Datum.isBelow`, `Datum.quotient`: comparison and division
* `Datum.aligned`: the text of a value in a column
* `Datum.isTruthy`: is the value neither zero nor empty?
-/

namespace Multigrid

/-! ## Numbers of places -/

/-- The number of places that there is room for. -/
def room : Int := 0x200000000

/-- Checks a number of places: it fits into a word of 64 bits, and there is room for them.  A number
below zero stands for none. -/
def checkRoom {R : Type} (count : Int) : Except (Fault R) Unit :=
  if count < -0x8000000000000000 ∨ 0x8000000000000000 ≤ count then .error .numberTooLarge
  else if room ≤ count then .error .outOfMemory
  else .ok ()

/-- A value whose kind is known only when it is used. -/
inductive Datum where
  /-- No value. -/
  | nothing
  /-- A flag. -/
  | flag (value : Bool)
  /-- An integer. -/
  | integer (value : Int)
  /-- A binary64 number. -/
  | real (value : Float)
  /-- A text. -/
  | text (value : String)
  /-- A list of values. -/
  | list (values : List Datum)
  /-- Named values. -/
  | record (fields : List (String × Datum))

namespace Datum

mutual

/-- The text of a value. -/
def quoted : Datum → String
  | nothing => "None"
  | flag value => if value then "True" else "False"
  | integer value => toString value
  | real value => Decimal.shortest value
  | text value => Text.quoted value
  | list values => "[" ++ ", ".intercalate (quotedItems values) ++ "]"
  | record fields => "\x7b" ++ ", ".intercalate (quotedFields fields) ++ "\x7d"

/-- The texts of the items of a list. -/
def quotedItems : List Datum → List String
  | [] => []
  | value :: rest => value.quoted :: quotedItems rest

/-- The texts of named values. -/
def quotedFields : List (String × Datum) → List String
  | [] => []
  | (name, value) :: rest => (Text.quoted name ++ ": " ++ value.quoted) :: quotedFields rest

end

/-- The text of a value for display: a text stands for itself. -/
def shown : Datum → String
  | text value => value
  | other => other.quoted

/-! ## Numbers -/

section Numbers

variable {R : Type}

/-- The binary64 value nearest to an integer. -/
def ofInteger (value : Int) : Except (Fault R) Float :=
  let x := Float.ofInt value
  if x.isInf then .error .numberTooLarge else .ok x

/-- The value as an integer, if it is one. -/
def toInteger? : Datum → Option Int
  | flag value => some (if value then 1 else 0)
  | integer value => some value
  | _ => none

/-- The value as an integer. -/
def toInteger (value : Datum) : Except (Fault R) Int :=
  match value.toInteger? with
  | some k => .ok k
  | none => .error .notANumber

/-- The value as a number in arithmetic; a text is none. -/
def toOperand : Datum → Except (Fault R) Float
  | flag value => .ok (if value then 1 else 0)
  | integer value => ofInteger value
  | real value => .ok value
  | _ => .error .notANumber

/-- The number that a value stands for; a text stands for the number that it reads as. -/
def toNumber : Datum → Except (Fault R) Float
  | text value =>
    match Decimal.read? value with
    | some x => .ok x
    | none => .error .unreadableNumber
  | other => other.toOperand

/-- The number that a value is displayed as, if it stands for one. -/
def toReal? (value : Datum) : Option Float :=
  (value.toNumber : Except (Fault Unit) Float).toOption

/-- A number without its fraction. -/
def wholePart (x : Float) : Except (Fault R) Int :=
  match integerPart x with
  | some k => .ok k
  | none => .error (if x.isNaN then .unreadableNumber else .numberTooLarge)

/-- The integer that a value stands for: a number without its fraction, or what a text reads as. -/
def toWhole : Datum → Except (Fault R) Int
  | real value => wholePart value
  | text value =>
    match Decimal.readInteger? value with
    | some k => .ok k
    | none => .error .unreadableNumber
  | other => other.toInteger

/-- Is the value above zero? -/
def isPositive : Datum → Except (Fault R) Bool
  | flag value => .ok value
  | integer value => .ok (0 < value)
  | real value => .ok (0 < value)
  | _ => .error .notANumber

/-- Is the value below one? -/
def isBelowOne : Datum → Except (Fault R) Bool
  | flag value => .ok !value
  | integer value => .ok (value < 1)
  | real value => .ok (value < 1)
  | _ => .error .notANumber

/-- The number of slots that a value asks for: without its fraction, and none if it is below one.
The eight bytes of every slot have to be countable in a word. -/
def toSlots (value : Datum) : Except (Fault R) Int := do
  if ← value.isBelowOne then return 0
  let slots ← value.toWhole
  if 0x1000000000000000 ≤ slots then throw .uncountable
  checkRoom slots
  return slots

/-- Is the value below a size? -/
def isBelow (value : Datum) (size : Nat) : Except (Fault R) Bool :=
  match value with
  | real value => .ok (value < Float.ofNat size)
  | other => return (← other.toInteger) < size

/-- The quotient by a positive number.  Of two integers it is rounded once; otherwise both are
binary64 numbers before they are divided. -/
def quotient (a b : Datum) : Except (Fault R) Float :=
  match a.toInteger?, b.toInteger? with
  | some a, some b =>
    let x := nearestQuotient a b.toNat
    if x.isInf then .error .numberTooLarge else .ok x
  | _, _ => return (← a.toOperand) / (← b.toOperand)

end Numbers

/-! ## Columns of text -/

section Aligned

variable {R : Type}

/-- The text of an integer, which a flag is as well. -/
def integerText : Datum → Except (Fault R) String
  | real _ | text _ => .error .unreadableNumber
  | other => return toString (← other.toInteger)

/-- The text of a number or of a text, before blanks that fill it up to `width` characters. -/
def aligned (width : Nat) (value : Datum) : Except (Fault R) String := do
  let shown ← match value with
    | text value => pure value
    | real value => pure (Decimal.shortest value)
    | other => other.integerText
  return Decimal.padRight width shown

end Aligned

/-- Is the value neither zero nor empty? -/
def isTruthy : Datum → Bool
  | nothing => false
  | flag value => value
  | integer value => value != 0
  | real value => value != 0
  | text value => value != ""
  | list values => !values.isEmpty
  | record fields => !fields.isEmpty

end Datum

end Multigrid
