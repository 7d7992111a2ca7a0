/-!
# Scalars that the kernels compute with

The setup kernels are written once for every scalar type that offers the four operations, the two
order tests and decimal literals.  No law is asked for, because the two floating-point types satisfy
few of them; a statement about exact arithmetic takes the rationals for the scalar type.

## Main definitions

* `Arith`: the operations
* `Arith.magnitude`, `Arith.least`, `Arith.greatest`: absolute value and the two extremes
* `divisionGuard`: the magnitude up to which a denominator counts as zero
-/

namespace Multigrid

/-- The operations of a scalar type, without laws. -/
class Arith (α : Type) where
  /-- Zero. -/
  [zero : Zero α]
  /-- One. -/
  [one : One α]
  /-- Addition. -/
  [add : Add α]
  /-- Subtraction. -/
  [sub : Sub α]
  /-- Multiplication. -/
  [mul : Mul α]
  /-- Division. -/
  [div : Div α]
  /-- Negation. -/
  [neg : Neg α]
  /-- The strict order. -/
  [lt : LT α]
  /-- The weak order. -/
  [le : LE α]
  /-- Decimal literals. -/
  [decimal : OfScientific α]
  /-- The strict order test. -/
  decLt : (a b : α) → Decidable (a < b)
  /-- The weak order test. -/
  decLe : (a b : α) → Decidable (a ≤ b)

section Instances

variable {α : Type} [Arith α]

instance (priority := 50) Arith.instZero : Zero α := Arith.zero

instance (priority := 50) Arith.instOne : One α := Arith.one

instance (priority := 50) Arith.instAdd : Add α := Arith.add

instance (priority := 50) Arith.instSub : Sub α := Arith.sub

instance (priority := 50) Arith.instMul : Mul α := Arith.mul

instance (priority := 50) Arith.instDiv : Div α := Arith.div

instance (priority := 50) Arith.instNeg : Neg α := Arith.neg

instance (priority := 50) Arith.instLT : LT α := Arith.lt

instance (priority := 50) Arith.instLE : LE α := Arith.le

instance (priority := 50) Arith.instOfScientific : OfScientific α := Arith.decimal

instance (priority := 50) Arith.instDecidableLT : DecidableLT α := Arith.decLt

instance (priority := 50) Arith.instDecidableLE : DecidableLE α := Arith.decLe

end Instances

instance : Arith Float where
  zero := ⟨0⟩
  one := ⟨1⟩
  decLt := fun a b => inferInstanceAs (Decidable (Float.lt a b))
  decLe := fun a b => inferInstanceAs (Decidable (Float.le a b))

instance : Arith Float32 where
  zero := ⟨0⟩
  one := ⟨1⟩
  decLt := fun a b => inferInstanceAs (Decidable (Float32.lt a b))
  decLe := fun a b => inferInstanceAs (Decidable (Float32.le a b))

/-- Exact arithmetic. -/
instance : Arith Rat where
  zero := ⟨0⟩
  one := ⟨1⟩
  decLt := fun a b => inferInstanceAs (Decidable (a < b))
  decLe := fun a b => inferInstanceAs (Decidable (a ≤ b))

namespace Arith

variable {α : Type} [Arith α]

/-- The absolute value; a value that is not below zero is returned as it is. -/
def magnitude (x : α) : α := if x < 0 then -x else x

/-- The smaller of two values, the second one if they are equal.  A value that is not comparable
with itself wins, so that it shows in every extreme it enters. -/
def least (a b : α) : α := if a < b then a else if a ≤ a then b else a

/-- The larger of two values, with the same rules. -/
def greatest (a b : α) : α := if b < a then a else if a ≤ a then b else a

end Arith

/-- The magnitude up to which a denominator counts as zero. -/
def divisionGuard {α : Type} [Arith α] : α := 1e-32

end Multigrid
