import Multigrid.Proofs.Scalar.Comparison
import Multigrid.Proofs.Scalar.Packing
import Multigrid.Scalar.Conversion
import Multigrid.Scalar.Storage

/-!
# Canonical values

A word stands for a significand of full width, or for a smaller one with the least exponent of its
format.  A product with one has the digits of the other factor and as many zeros, so rounding only
drops the zeros again: one is a unit.  A value from one on has a significand of full width and an
exponent that leaves at least one digit before the point.

## Main definitions

* `IsCanonical`: values whose exponent is the one that rounding aims at
* `UnitLaws`: what is known of zero and one in storage and in sums

## Main results

* `isCanonical_unpack`: words stand for canonical values
* `float_one_mul`: one is a unit
* `one_le_of_ceiling?_eq_some`: the limit that a number from one on stands for
* `instUnitLawsFloat`, `instUnitLawsFloat32`, `instUnitLawsRat`: the laws
-/

namespace Multigrid

open Float.Model (UnpackedFloat Format totalExponent)
open Float.Model.UnpackedFloat

/-! ## Words -/

/-- The exponent of a finite value is the one that rounding aims at. -/
def IsCanonical (spec : Format) : UnpackedFloat → Prop
  | .finite _ m e _ => spec.targetExponent (totalExponent m e) = e
  | _ => True

theorem targetExponent_binary64 (t : Int) :
    Format.binary64.targetExponent t = max (t - 53) (-1074) := rfl

theorem bias_binary64 : (Format.binary64.exponentBias : Int) = 1023 := rfl

/-- Words stand for canonical values. -/
theorem isCanonical_unpack (word : BitVec 64) : IsCanonical .binary64 (unpack .binary64 word) := by
  fun_cases unpack with
  | case1 => trivial
  | case2 => trivial
  | case3 => trivial
  | case4 mantissa exponent e sign s hfull hzero hne =>
    have hlog : mantissa.toNat.log2 < 52 :=
      (Nat.log2_lt (by simpa [← BitVec.toNat_inj] using hne)).mpr mantissa.isLt
    have he : e = -1075 := by
      simp only [e, exponent, hzero, bias_binary64]
      rfl
    rw [IsCanonical, targetExponent_binary64, totalExponent, he]
    omega
  | case5 mantissa exponent e sign s hfull hzero =>
    have hlog : (1#1 ++ mantissa).toNat.log2 = 52 := by
      have hlt : mantissa.toNat < 2 ^ 52 := mantissa.isLt
      have happend : (1#1 ++ mantissa).toNat = 2 ^ 52 + mantissa.toNat := by
        rw [BitVec.toNat_append]
        simpa using (Nat.two_pow_add_eq_or_of_lt hlt 1).symm
      rw [happend, Nat.log2_eq_iff (by omega)]
      omega
    have he : -1074 ≤ e := by
      have hpos : exponent.toNat ≠ 0 := fun h => hzero (BitVec.toNat_inj.mp h)
      simp only [e, bias_binary64]
      omega
    rw [IsCanonical, targetExponent_binary64, totalExponent, hlog]
    omega

/-! ## Products with one -/

theorem shiftRight_exact (m k : Nat) :
    (⟨m <<< k, false, false⟩ : ExtendedMantissa) >>> k = ⟨m, false, false⟩ := by
  show k.repeat ExtendedMantissa.shiftRightOne _ = _
  induction k generalizing m with
  | zero => rfl
  | succ k ih =>
    -- all but the last shift leave an even significand, whose last digit is dropped
    rw [Nat.repeat, Nat.shiftLeft_succ_inside, ih, ExtendedMantissa.shiftRightOne]
    simp

/-- A significand that is longer by zeros only is rounded to what it was. -/
theorem roundWithAccuracy_shiftLeft {spec : Format} (s : Sign) {m : Nat} {e : Int} (hm : 0 < m)
    (h : IsCanonical spec (.finite s m e hm)) (k : Nat) :
    roundWithAccuracy spec s (m <<< k) (e - k) .exact = .finite s m e hm := by
  have hshift (k : Nat) : shiftToTargetExponent spec (m <<< k) (e - k) .exact =
      (⟨m, false, false⟩, e) := by
    rw [IsCanonical] at h
    rw [shiftToTargetExponent, totalExponent_shiftLeft hm.ne', h, shiftToExponent]
    simp [ExtendedMantissa.ofMantissaAndAccuracy, shiftRight_exact]
  have hrounded : (⟨m, false, false⟩ : ExtendedMantissa).roundedMantissa = m := rfl
  have hagain : shiftToTargetExponent spec m e .exact = (⟨m, false, false⟩, e) := by
    simpa using hshift 0
  simp only [roundWithAccuracy, hshift, hrounded, hagain, hm.ne', dif_neg, not_false_eq_true]

theorem positive_mul (s : Sign) : Sign.positive * s = s := by
  cases s <;> rfl

/-- One is a unit, also of values that are not comparable. -/
theorem float_one_mul (x : Float) : 1 * x = x := by
  obtain ⟨⟨word, hword⟩⟩ := x
  have hone : (1 : Float).toModel.unpack =
    .finite .positive (1 <<< 52) (-52) (by decide) := rfl
  have hmul : UnpackedFloat.mul .binary64 (1 : Float).toModel.unpack
      (unpack .binary64 word.toBitVec) = unpack .binary64 word.toBitVec := by
    have hcanonical := isCanonical_unpack word.toBitVec
    rw [hone]
    generalize unpack .binary64 word.toBitVec = f at hcanonical
    rcases f with s | _ | s | ⟨s, m, e, hm⟩
    · exact congrArg UnpackedFloat.infinity (positive_mul s)
    · rfl
    · exact congrArg UnpackedFloat.zero (positive_mul s)
    · have hm' : 1 <<< 52 * m = m <<< 52 := by
        rw [Nat.shiftLeft_eq, Nat.shiftLeft_eq, Nat.one_mul, Nat.mul_comm]
      have he : -52 + e = e - (52 : Nat) := by omega
      rw [UnpackedFloat.mul, positive_mul, hm', he]
      exact roundWithAccuracy_shiftLeft s hm hcanonical 52
  have hbits : UInt64.ofBitVec (pack .binary64 (UnpackedFloat.mul .binary64
      (1 : Float).toModel.unpack (unpack .binary64 word.toBitVec))) = word := by
    rw [hmul, pack_unpack_of_valid hword, UInt64.ofBitVec_toBitVec]
  exact Float.toBits_inj.mp hbits

/-! ## Limits -/

theorem two_pow_le_of_isCanonical {s : Sign} {m : Nat} {e : Int} {hm : 0 < m}
    (h : IsCanonical .binary64 (.finite s m e hm)) (he : -1074 < e) : 2 ^ 52 ≤ m := by
  rw [IsCanonical, targetExponent_binary64, totalExponent] at h
  exact ((Nat.log2_eq_iff hm.ne').mp (by omega : m.log2 = 52)).1

/-- A number from one on has an integer part from one on. -/
theorem one_le_of_integerPart_eq_some {x : Float} (hx : 1 ≤ x) {k : Int}
    (hk : integerPart x = some k) : 1 ≤ k := by
  have hone : (1 : Float).toModel.unpack =
    .finite .positive (2 ^ 52) (-52) (by decide) := rfl
  obtain ⟨-, -, hkey⟩ := (float_le_iff 1 x).mp hx
  have hcanonical : IsCanonical .binary64 x.toModel.unpack := isCanonical_unpack _
  unfold integerPart at hk
  rw [hone] at hkey
  generalize x.toModel.unpack = f at hkey hcanonical hk
  rcases f with _ | _ | _ | ⟨(_ | _), m, e, hm⟩
  · cases hk
  · cases hk
  · simp [orderKey, Prod.Lex.le_iff] at hkey
  · simp [orderKey, Prod.Lex.le_iff] at hkey
  · have hexponent : -52 < e ∨ -52 = e ∧ 2 ^ 52 ≤ (m : Int) := by
      simpa [orderKey, Prod.Lex.le_iff] using hkey
    have hfull : 2 ^ 52 ≤ m := two_pow_le_of_isCanonical hcanonical (by omega)
    obtain rfl := Option.some.inj hk
    rw [Sign.apply]
    split_ifs with hsign
    · rw [Nat.shiftLeft_eq]
      exact_mod_cast Nat.mul_pos hm (Nat.two_pow_pos _)
    · -- at most the digits of the significand are dropped, but for the first one
      have hdigits : 2 ^ (-e).toNat ≤ m :=
        (Nat.pow_le_pow_right (by decide) (by omega)).trans hfull
      rw [Nat.shiftRight_eq_div_pow]
      exact_mod_cast Nat.div_pos hdigits (Nat.two_pow_pos _)

/-- A number with an integer part is comparable. -/
theorem one_le_of_not_lt_one {x : Float} (hx : ¬ x < 1) {k : Int} (hk : integerPart x = some k) :
    1 ≤ x := by
  have hself : x ≤ x := by
    -- a value that is not comparable has no integer part
    rw [le_self_iff float_le_iff, ← Bool.not_eq_true, isNaN_iff]
    intro hnan
    rw [integerPart, hnan] at hk
    cases hk
  exact (ValueOrder.not_lt hself (by decide)).mp hx

/-- The limit that a number stands for is at least one if the number is not below one. -/
theorem one_le_of_ceiling?_eq_some {x : Float} (hx : ¬ x < 1) {k : Int}
    (hk : ceiling? x = some k) : 1 ≤ k := by
  obtain ⟨k', hk', rfl⟩ := Option.map_eq_some_iff.mp hk
  have hle := one_le_of_integerPart_eq_some (one_le_of_not_lt_one hx hk') hk'
  split_ifs
  · omega
  · exact hle

/-! ## Laws of zero and one -/

/-- What is known of zero and one, in storage and in sums. -/
class UnitLaws (V W : Type) [Arith V] [Arith W] [Storage V V W] : Prop where
  /-- One is kept by widening. -/
  widen_one : Storage.widen (1 : V) = (1 : W)
  /-- The magnitude of one. -/
  magnitude_one : Storage.magnitude (1 : V) = (1 : W)
  /-- One is kept by rounding. -/
  narrow_one : Storage.narrow (1 : W) = (1 : V)
  /-- One is above zero. -/
  greatest_zero_one : Arith.greatest (0 : W) 1 = 1
  /-- The sum of one item that is one. -/
  zero_add_one : (0 : W) + 1 = 1
  /-- The quotient of one by itself. -/
  one_div_one : (1 : W) / 1 = 1
  /-- One is a unit. -/
  one_mul (x : W) : 1 * x = x

instance instUnitLawsFloat : UnitLaws Float Float where
  widen_one := rfl
  magnitude_one := by decide +kernel
  narrow_one := rfl
  greatest_zero_one := by decide +kernel
  zero_add_one := by decide +kernel
  one_div_one := by decide +kernel
  one_mul := float_one_mul

instance instUnitLawsFloat32 : UnitLaws Float32 Float where
  widen_one := by decide +kernel
  magnitude_one := by decide +kernel
  narrow_one := by decide +kernel
  greatest_zero_one := instUnitLawsFloat.greatest_zero_one
  zero_add_one := instUnitLawsFloat.zero_add_one
  one_div_one := instUnitLawsFloat.one_div_one
  one_mul := float_one_mul

instance instUnitLawsRat : UnitLaws Rat Rat where
  widen_one := rfl
  magnitude_one := by decide +kernel
  narrow_one := rfl
  greatest_zero_one := by decide +kernel
  zero_add_one := by decide +kernel
  one_div_one := by decide +kernel
  one_mul := Rat.one_mul

end Multigrid
