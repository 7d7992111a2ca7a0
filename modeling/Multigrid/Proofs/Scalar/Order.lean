import Multigrid.Scalar.Arith
import Mathlib

/-!
# The order of weights

Weights are only compared: with one, and with each other.  The strict order of a floating-point
format is irreflexive and transitive, values that are not comparable included, and any two values
from one on are comparable.  Nothing more is needed of weights.

A binary32 value is compared by its sign, exponent and mantissa.  `orderKey` is its place in a
linear order of triples, and values that lie above zero are determined by their place.

## Main definitions

* `WeightOrder`: the laws of the order of weights
* `orderKey`: the place of a floating-point value in the order

## Main results

* `instWeightOrderFloat32`, `instWeightOrderRat`: binary32 values and rationals obey the laws
-/

namespace Multigrid

/-- The laws of the order of weights. -/
class WeightOrder (Ω : Type) [Arith Ω] : Prop where
  /-- No weight is lighter than itself. -/
  lt_irrefl (a : Ω) : ¬ a < a
  /-- The order is transitive. -/
  lt_trans {a b c : Ω} : a < b → b < c → a < c
  /-- Of two different weights from one on, one is lighter. -/
  lt_trichotomy {a b : Ω} : 1 ≤ a → 1 ≤ b → a < b ∨ a = b ∨ b < a

namespace WeightOrder

variable {Ω : Type} [Arith Ω] [WeightOrder Ω]

theorem lt_asymm {a b : Ω} (h : a < b) : ¬ b < a :=
  fun h' => lt_irrefl a (lt_trans h h')

/-- The heavier of two weights comes first in a well-founded order of finitely many points. -/
theorem wellFounded_heavier {n : Nat} (weights : Vector Ω n) :
    WellFounded fun i j : Fin n => weights.get j < weights.get i :=
  @Finite.wellFounded_of_trans_of_irrefl (Fin n) _ _ ⟨fun _ _ _ h h' => lt_trans h' h⟩
    ⟨fun i => lt_irrefl (weights.get i)⟩

end WeightOrder

instance instWeightOrderRat : WeightOrder Rat where
  lt_irrefl a := lt_irrefl (α := Rat) a
  lt_trans h h' := lt_trans (α := Rat) h h'
  lt_trichotomy {a b} _ _ := lt_trichotomy (α := Rat) a b

/-! ## Floating-point values by their place in the order -/

section Key

open Float.Model (UnpackedFloat)

/-- The place of a floating-point value in the order. -/
def orderKey : UnpackedFloat → ℤ ×ₗ (ℤ ×ₗ ℤ)
  | .infinity .positive => toLex (2, toLex (0, 0))
  | .finite .positive m e _ => toLex (1, toLex (e, m))
  | .zero _ | .notANumber => toLex (0, toLex (0, 0))
  | .finite .negative m e _ => toLex (-1, toLex (-e, -m))
  | .infinity .negative => toLex (-2, toLex (0, 0))

theorem compare_toLex (k e e' m m' : ℤ) :
    compare (toLex (k, toLex (e, m)) : ℤ ×ₗ (ℤ ×ₗ ℤ)) (toLex (k, toLex (e', m'))) =
      (compare e e').then (compare m m') := by
  simp [Prod.Lex.compare_def, compareLex, compareOn]

theorem compare_neg_neg (a b : ℤ) : compare (-a) (-b) = compare b a := by
  simp only [← cmp_eq_compare, cmp, cmpUsing]
  grind

theorem compare_natCast (a b : ℕ) : compare (a : ℤ) (b : ℤ) = compare a b := by
  simp only [← cmp_eq_compare, cmp, cmpUsing]
  grind

/-- Comparable values are compared by their places. -/
theorem compare_eq_compare_orderKey {a b : UnpackedFloat} (ha : a.isNaN = false)
    (hb : b.isNaN = false) : a.compare b = some (compare (orderKey a) (orderKey b)) := by
  rcases a with (_ | _) | _ | _ | ⟨(_ | _), m, e, _⟩ <;>
    rcases b with (_ | _) | _ | _ | ⟨(_ | _), m', e', _⟩ <;>
    first
    | contradiction
    | rfl
    | skip
  -- only two finite values of one sign have a place that depends on exponent and mantissa
  · simp only [orderKey, compare_toLex, compare_neg_neg, compare_natCast, UnpackedFloat.compare,
      Ordering.swap_then]
    simp only [← cmp_eq_compare, cmp_swap]
  · simp only [orderKey, compare_toLex, compare_natCast, UnpackedFloat.compare]

theorem compare_eq_none {a b : UnpackedFloat} (h : a.isNaN = true ∨ b.isNaN = true) :
    a.compare b = none := by
  cases a <;> cases b <;> simp_all [UnpackedFloat.isNaN, UnpackedFloat.compare]

theorem lt_iff_orderKey (a b : UnpackedFloat) :
    a.lt b = true ↔ a.isNaN = false ∧ b.isNaN = false ∧ orderKey a < orderKey b := by
  by_cases h : a.isNaN = true ∨ b.isNaN = true
  · rw [UnpackedFloat.lt, compare_eq_none h]
    rcases h with h | h <;> simp [h]
  · simp only [not_or, Bool.not_eq_true] at h
    rw [UnpackedFloat.lt, compare_eq_compare_orderKey h.1 h.2]
    simp [h.1, h.2, compare_lt_iff_lt]

theorem le_iff_orderKey (a b : UnpackedFloat) :
    a.le b = true ↔ a.isNaN = false ∧ b.isNaN = false ∧ orderKey a ≤ orderKey b := by
  by_cases h : a.isNaN = true ∨ b.isNaN = true
  · rw [UnpackedFloat.le, compare_eq_none h]
    rcases h with h | h <;> simp [h]
  · simp only [not_or, Bool.not_eq_true] at h
    rw [UnpackedFloat.le, compare_eq_compare_orderKey h.1 h.2]
    simp [h.1, h.2, Ordering.isLE_iff_ne_gt, compare_le_iff_le]

/-- A value above zero is determined by its place. -/
theorem eq_of_orderKey_eq {a b : UnpackedFloat} (h : orderKey a = orderKey b)
    (ha : orderKey (.zero .positive) < orderKey a) : a = b := by
  rcases a with (_ | _) | _ | _ | ⟨(_ | _), m, e, _⟩ <;>
    rcases b with (_ | _) | _ | _ | ⟨(_ | _), m', e', _⟩ <;>
    simp_all [orderKey, Prod.Lex.lt_iff]

end Key

/-! ## Binary32 values by their fields -/

section Fields

open Float.Model (UnpackedFloat Format)
open Float.Model.UnpackedFloat (unpackSign unpackExponent unpackMantissa unpack)

/-- A word is made of a sign, an exponent and a mantissa. -/
theorem toNat_eq_fields (b : BitVec 32) :
    b.toNat = (@unpackSign .binary32 b).toNat * 2147483648 +
      (@unpackExponent .binary32 b).toNat * 8388608 +
      (@unpackMantissa .binary32 b).toNat := by
  have hs : (@unpackSign .binary32 b).toNat = b.toNat / 2147483648 := by
    have hb : b.toNat < 4294967296 := b.isLt
    simp [unpackSign, Nat.shiftRight_eq_div_pow]
    omega
  have he : (@unpackExponent .binary32 b).toNat = b.toNat / 8388608 % 256 := by
    simp [unpackExponent, Nat.shiftRight_eq_div_pow]
  have hm : (@unpackMantissa .binary32 b).toNat = b.toNat % 8388608 := by
    simp [unpackMantissa]
  -- quotient and remainders put the word together again
  omega

/-- The value of a sign, an exponent and a mantissa. -/
def ofFields (sign : BitVec 1) (exponent : BitVec 8) (mantissa : BitVec 23) : UnpackedFloat :=
  if exponent.toNat = 255 then
    if mantissa.toNat = 0 then .infinity (.ofBitVec sign) else .notANumber
  else if exponent.toNat = 0 then
    if h : mantissa.toNat = 0 then .zero (.ofBitVec sign)
    else .finite (.ofBitVec sign) mantissa.toNat (exponent.toNat - 149) (by omega)
  else .finite (.ofBitVec sign) (8388608 + mantissa.toNat) (exponent.toNat - 150) (by omega)

theorem toNat_one_append (m : BitVec 23) : (1#1 ++ m).toNat = 8388608 + m.toNat := by
  rw [BitVec.toNat_append]
  simpa using (Nat.two_pow_add_eq_or_of_lt m.isLt 1).symm

theorem unpack_eq_ofFields (b : BitVec 32) :
    unpack .binary32 b = ofFields (@unpackSign .binary32 b)
      (@unpackExponent .binary32 b) (@unpackMantissa .binary32 b) := by
  have body (s : BitVec 1) (e : BitVec 8) (m : BitVec 23) (hm : m ≠ 0#23 → 0 < m.toNat)
      (hn : 0 < (1#1 ++ m).toNat) :
      (if e = -1#8 then
          if m = 0#23 then UnpackedFloat.infinity (.ofBitVec s) else .notANumber
        else if e = 0#8 then
          if h : m = 0#23 then .zero (.ofBitVec s)
          else .finite (.ofBitVec s) m.toNat (((e.toNat : Int) - (127 + 23)) + 1) (hm h)
        else .finite (.ofBitVec s) (1#1 ++ m).toNat ((e.toNat : Int) - (127 + 23)) hn) =
      ofFields s e m := by
    have h1 : e = -1#8 ↔ e.toNat = 255 := by simp [← BitVec.toNat_inj]
    have h2 : e = 0#8 ↔ e.toNat = 0 := by simp [← BitVec.toNat_inj]
    have h3 : m = 0#23 ↔ m.toNat = 0 := by simp [← BitVec.toNat_inj]
    -- the fields are compared as words on one side and as numbers on the other
    unfold ofFields
    simp only [h1, h2, h3, toNat_one_append]
    split_ifs
    · rfl
    · rfl
    · rfl
    · congr 1
      omega
    · rfl
  exact body _ _ _ _ _

theorem ofBitVec_inj (s s' : BitVec 1)
    (h : UnpackedFloat.Sign.ofBitVec s = UnpackedFloat.Sign.ofBitVec s') : s = s' := by
  have hs : s.toNat < 2 := s.isLt
  have hs' : s'.toNat < 2 := s'.isLt
  unfold UnpackedFloat.Sign.ofBitVec at h
  simp only [← BitVec.toNat_inj, BitVec.toNat_ofNat] at h ⊢
  split_ifs at h <;> omega

/-- The fields of a comparable value are determined by it. -/
theorem ofFields_inj {s s' : BitVec 1} {e e' : BitVec 8} {m m' : BitVec 23}
    (h : ofFields s e m = ofFields s' e' m') (hn : (ofFields s e m).isNaN = false) :
    s = s' ∧ e = e' ∧ m = m' := by
  have hm : m.toNat < 8388608 := m.isLt
  have hm' : m'.toNat < 8388608 := m'.isLt
  have hs := ofBitVec_inj s s'
  -- a value tells its class, and within a class the fields are read off it
  unfold ofFields at h hn
  simp only [← BitVec.toNat_inj] at hs ⊢
  split_ifs at h hn <;> (simp_all [UnpackedFloat.isNaN]; try omega)

end Fields

/-! ## The order of binary32 -/

section SinglePrecision

theorem float32_lt_iff (a b : Float32) :
    a < b ↔ a.toModel.unpack.isNaN = false ∧ b.toModel.unpack.isNaN = false ∧
      orderKey a.toModel.unpack < orderKey b.toModel.unpack :=
  (iff_of_eq (decide_eq_true_eq (p := a.toModel < b.toModel))).trans
    (lt_iff_orderKey a.toModel.unpack b.toModel.unpack)

theorem float32_le_iff (a b : Float32) :
    a ≤ b ↔ a.toModel.unpack.isNaN = false ∧ b.toModel.unpack.isNaN = false ∧
      orderKey a.toModel.unpack ≤ orderKey b.toModel.unpack :=
  (iff_of_eq (decide_eq_true_eq (p := a.toModel ≤ b.toModel))).trans
    (le_iff_orderKey a.toModel.unpack b.toModel.unpack)

/-- Words that unpack to one comparable value are equal. -/
theorem float32_eq_of_unpack_eq {a b : Float32} (h : a.toModel.unpack = b.toModel.unpack)
    (hn : a.toModel.unpack.isNaN = false) : a = b := by
  obtain ⟨⟨x, hx⟩⟩ := a
  obtain ⟨⟨y, hy⟩⟩ := b
  simp only [Float32.Model.unpack, unpack_eq_ofFields] at h hn
  obtain ⟨hs, he, hm⟩ := ofFields_inj h hn
  have hxy : x.toBitVec = y.toBitVec := by
    rw [← BitVec.toNat_inj, toNat_eq_fields, toNat_eq_fields y.toBitVec, hs, he, hm]
  obtain rfl : x = y := UInt32.toBitVec_inj.mp hxy
  rfl

theorem zero_lt_orderKey_one :
    orderKey (.zero .positive) < orderKey (1 : Float32).toModel.unpack := by
  decide

instance instWeightOrderFloat32 : WeightOrder Float32 where
  lt_irrefl a h := lt_irrefl _ ((float32_lt_iff a a).mp h).2.2
  lt_trans {a b c} h h' := by
    obtain ⟨ha, -, hab⟩ := (float32_lt_iff a b).mp h
    obtain ⟨-, hc, hbc⟩ := (float32_lt_iff b c).mp h'
    exact (float32_lt_iff a c).mpr ⟨ha, hc, hab.trans hbc⟩
  lt_trichotomy {a b} h h' := by
    obtain ⟨-, ha, h1a⟩ := (float32_le_iff 1 a).mp h
    obtain ⟨-, hb, -⟩ := (float32_le_iff 1 b).mp h'
    rcases lt_trichotomy (orderKey a.toModel.unpack) (orderKey b.toModel.unpack) with
      hlt | heq | hgt
    · exact .inl ((float32_lt_iff a b).mpr ⟨ha, hb, hlt⟩)
    · -- one place above zero belongs to one value, which has one word
      have hpos := lt_of_lt_of_le zero_lt_orderKey_one h1a
      exact .inr (.inl (float32_eq_of_unpack_eq (eq_of_orderKey_eq heq hpos) ha))
    · exact .inr (.inr ((float32_lt_iff b a).mpr ⟨hb, ha, hgt⟩))

end SinglePrecision

/-! ## The order of binary64 -/

section DoublePrecision

theorem float_lt_iff (a b : Float) :
    a < b ↔ a.toModel.unpack.isNaN = false ∧ b.toModel.unpack.isNaN = false ∧
      orderKey a.toModel.unpack < orderKey b.toModel.unpack :=
  (iff_of_eq (decide_eq_true_eq (p := a.toModel < b.toModel))).trans
    (lt_iff_orderKey a.toModel.unpack b.toModel.unpack)

theorem float_le_iff (a b : Float) :
    a ≤ b ↔ a.toModel.unpack.isNaN = false ∧ b.toModel.unpack.isNaN = false ∧
      orderKey a.toModel.unpack ≤ orderKey b.toModel.unpack :=
  (iff_of_eq (decide_eq_true_eq (p := a.toModel ≤ b.toModel))).trans
    (le_iff_orderKey a.toModel.unpack b.toModel.unpack)

end DoublePrecision

end Multigrid
