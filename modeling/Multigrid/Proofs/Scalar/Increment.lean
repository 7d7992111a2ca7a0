import Multigrid.Proofs.Scalar.RoundedOrder
import Multigrid.Strength.Influence

/-!
# Increments

A weight starts from a value that is not below zero and is increased by one again and again.  Every
increment is rounded, and from some value on an increment changes nothing.  What is left of the laws
of exact addition is that an increment keeps the order and does not lead to a smaller value.  Both
hold of exact increments as well, and both pass from one increment to many.  In particular a value
that is not below zero becomes one that is at least one, as zero itself does.

Uniform draws are quotients of values that are not below zero.

## Main definitions

* `IncrementOrder`: the laws of comparison and of increments

## Main results

* `one_le_add_one`: a value that is not below zero, increased by one
* `increased_le_increased`: as many increments of two start values
* `increased_mono`: more increments of one start value
* `increased_le_of_lt`: more increments of a start value that is not much smaller
* `zero_le_unitValue`: draws are not below zero
-/

namespace Multigrid

open Float.Model (UnpackedFloat)
open Float.Model.UnpackedFloat

/-! ## One increment -/

/-- The laws of comparison and of increments by one. -/
class IncrementOrder (Ω : Type) [Arith Ω] : Prop extends ValueOrder Ω where
  /-- Increments keep the order. -/
  add_one_le_add_one {a b : Ω} : a ≤ b → a + 1 ≤ b + 1
  /-- No increment leads to a smaller value. -/
  le_add_one {a : Ω} : a ≤ a → a ≤ a + 1

instance instIncrementOrderRat : IncrementOrder Rat where
  add_one_le_add_one h := add_le_add_left (α := Rat) h 1
  le_add_one _ := le_add_of_nonneg_right (α := Rat) zero_le_one

theorem unpack_add_one (x : Float32) : (x + 1).toModel.unpack =
    packedSum .binary32 x.toModel.toBits.toBitVec (1 : Float32).toModel.toBits.toBitVec := rfl

instance instIncrementOrderFloat32 : IncrementOrder Float32 where
  add_one_le_add_one {a b} h := by
    obtain ⟨ha, hb, hle⟩ := (float32_le_iff a b).mp h
    rw [float32_le_iff, unpack_add_one, unpack_add_one]
    exact ⟨isNaN_packedSum (by decide) ha rfl, isNaN_packedSum (by decide) hb rfl,
      orderKey_packedSum_le (by decide) ha hb rfl hle⟩
  le_add_one {a} h := by
    obtain ⟨ha, -, -⟩ := (float32_le_iff a a).mp h
    rw [float32_le_iff, unpack_add_one]
    refine ⟨ha, isNaN_packedSum (by decide) ha rfl, orderKey_le_packedSum (by decide) ha rfl ?_⟩
    show (0 : ℚ) ≤ (8388608 : ℤ) * 2 ^ (-23 : ℤ)
    positivity

/-- Increasing a value that is not below zero by one gives a value from one on. -/
theorem one_le_add_one {x : Float32} (hx : 0 ≤ x) : 1 ≤ x + 1 := by
  have hzero : (1 : Float32) ≤ 0 + 1 := by decide
  exact ValueOrder.le_trans hzero (IncrementOrder.add_one_le_add_one hx)

theorem zero_le_of_one_le {x : Float32} (hx : 1 ≤ x) : 0 ≤ x := by
  have hone : (0 : Float32) ≤ 1 := by decide
  exact ValueOrder.le_trans hone hx

/-! ## Many increments -/

section Increased

variable {Ω : Type} [Arith Ω] {start start' : Ω} {count count' : Nat}

theorem increased_succ (start : Ω) (count : Nat) :
    increased start (count + 1) = increased start count + 1 := rfl

theorem increased_add_one (start : Ω) (count : Nat) :
    increased (start + 1) count = increased start (count + 1) := by
  induction count with
  | zero => rfl
  | succ count ih => rw [increased_succ, ih, increased_succ start (count + 1)]

variable [IncrementOrder Ω]

/-- As many increments keep the order of start values. -/
theorem increased_le_increased (h : start ≤ start') (count : Nat) :
    increased start count ≤ increased start' count := by
  induction count with
  | zero => exact h
  | succ count ih => exact IncrementOrder.add_one_le_add_one ih

/-- More increments do not lead to a smaller value. -/
theorem increased_mono (h : start ≤ start) (hcount : count ≤ count') :
    increased start count ≤ increased start count' := by
  induction hcount with
  | refl => exact increased_le_increased h count
  | step _ ih => exact ValueOrder.le_trans ih (IncrementOrder.le_add_one (ValueOrder.le_self ih).2)

/-- One more increment makes up for a start value that is smaller by one at most. -/
theorem increased_le_of_lt (h : start ≤ start' + 1) (hself : start' ≤ start')
    (hcount : count < count') : increased start count ≤ increased start' count' := by
  have hnext : increased start count ≤ increased start' (count + 1) := by
    rw [← increased_add_one]
    exact increased_le_increased h count
  exact ValueOrder.le_trans hnext (increased_mono hself hcount)

end Increased

/-! ## Draws -/

theorem unpack_div (x y : Float32) : (x / y).toModel.unpack =
    unpack .binary32 (pack .binary32
      (UnpackedFloat.div .binary32 x.toModel.unpack y.toModel.unpack)) := rfl

theorem unpack_toFloat32 (k : UInt32) : k.toFloat32.toModel.unpack =
    unpack .binary32 (pack .binary32 (UnpackedFloat.normalize .binary32 k.toNat 0 .positive)) := rfl

theorem zero_le_iff_isNotNegative (x : Float32) : 0 ≤ x ↔ IsNotNegative x.toModel.unpack := by
  have hzero : (0 : Float32).toModel.unpack = .zero .positive := rfl
  rw [float32_le_iff, isNotNegative_iff, hzero]
  exact and_iff_right rfl

/-- A uniform value is not below zero. -/
theorem zero_le_unitValue (draw : UInt32) : 0 ≤ Random.unitValue draw := by
  have hdivisor : (16777216 : Float32).toModel.unpack =
      .finite .positive 8388608 1 (by decide) := rfl
  rw [zero_le_iff_isNotNegative, Random.unitValue, unpack_div, unpack_toFloat32, hdivisor]
  apply isNotNegative_unpack_pack
  apply isNotNegative_div
  apply isNotNegative_unpack_pack
  exact isNotNegative_normalize _ _

end Multigrid
