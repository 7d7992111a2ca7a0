import Multigrid.Proofs.Scalar.Order

/-!
# Rounding and packing

A result is rounded by shifting its significand to the right, and the rounded value is packed into a
word.  The significand that is left is the integer part of the exact one or the integer after that.
Reading the word back gives the value again, its fields if it is small, or an infinity if it is too
large.  Neither step changes a sign.

## Main definitions

* `IsNotNegative`: zero, or anything with a positive sign

## Main results

* `mantissa_shiftRight`, `roundedMantissa_bounds`: significands that are shifted and rounded
* `unpack_pack_finite`: binary32 words that are read back
* `isNotNegative_unpack_pack`: packing keeps a value from falling below zero
-/

namespace Multigrid

open Float.Model (UnpackedFloat Format totalExponent)
open Float.Model.UnpackedFloat

/-! ## Rounding -/

theorem mantissa_shiftRight (em : ExtendedMantissa) (k : Nat) :
    (em >>> k).mantissa = em.mantissa / 2 ^ k := by
  show (k.repeat ExtendedMantissa.shiftRightOne em).mantissa = _
  induction k with
  | zero => simp [Nat.repeat]
  | succ k ih =>
    rw [Nat.repeat, ExtendedMantissa.shiftRightOne, ih, Nat.div_div_eq_div_mul, pow_succ]

theorem roundedMantissa_bounds (em : ExtendedMantissa) :
    em.mantissa ≤ em.roundedMantissa ∧ em.roundedMantissa ≤ em.mantissa + 1 := by
  obtain ⟨m, round, sticky⟩ := em
  cases round <;> cases sticky <;>
    simp only [ExtendedMantissa.roundedMantissa, ExtendedMantissa.accuracy,
      Accuracy.roundToNearestEven] <;> omega

theorem totalExponent_shiftLeft {m : Nat} (hm : m ≠ 0) (e : Int) (s : Nat) :
    totalExponent (m <<< s) (e - s) = totalExponent m e := by
  have hlog : (m <<< s).log2 = m.log2 + s := by
    have hne : m <<< s ≠ 0 := by
      rw [Nat.shiftLeft_eq]
      positivity
    obtain ⟨hlow, hhigh⟩ := (Nat.log2_eq_iff hm).mp rfl
    rw [Nat.log2_eq_iff hne, Nat.shiftLeft_eq, pow_add, Nat.add_right_comm, pow_add]
    exact ⟨Nat.mul_le_mul_right _ hlow, Nat.mul_lt_mul_of_pos_right hhigh (by positivity)⟩
  simp only [totalExponent, hlog]
  push_cast
  omega

/-! ## Packing -/

theorem unpack_packComponents (sign : Sign) (e : BitVec 8) (m : BitVec 23) :
    unpack .binary32 (packComponents .binary32 sign e m) = ofFields sign.toBitVec e m := by
  have hsign := @unpackSign_packComponents .binary32 sign e m
  have hexponent := @unpackExponent_packComponents .binary32 sign e m
  have hmantissa := @unpackMantissa_packComponents .binary32 sign e m
  -- the word itself is not looked into
  generalize packComponents .binary32 sign e m = word at hsign hexponent hmantissa
  rw [unpack_eq_ofFields word]
  exact congr (congr (congrArg ofFields hsign) hexponent) hmantissa

theorem unpack_packedInfinity {spec : Format} (sign : Sign) :
    unpack spec (packedInfinity spec sign) = .infinity sign := by
  simp [unpack, packedInfinity]

/-- A word made of a value that is not zero gives an infinity, or the fields of the value. -/
theorem unpack_pack_finite (sign : Sign) {m : Nat} {e : Int} (hm : 0 < m) :
    unpack .binary32 (pack .binary32 (.finite sign m e hm)) =
      if 256 ≤ (e + 150).toNat + 1 then .infinity sign
      else if m.log2 + 1 = 24 then
        ofFields sign.toBitVec (.ofNat 8 (e + 150).toNat) (.ofNat 23 m)
      else ofFields sign.toBitVec 0#8 (.ofNat 23 m) := by
  have hbiased : e + (Format.binary32.exponentBias : Int) +
      (Format.binary32.mantissaBitsWithoutImplicit : Int) = e + 150 := by
    show e + 127 + 23 = e + 150
    rw [Int.add_assoc]
    rfl
  have hmost : 2 ^ Format.binary32.exponentBits = 256 := rfl
  have hwidth : Format.binary32.mantissaBits = 24 := rfl
  simp only [pack, hbiased, hmost, hwidth]
  split_ifs
  · exact unpack_packedInfinity sign
  · exact unpack_packComponents sign _ _
  · exact unpack_packComponents sign _ _

/-- A value that is not below zero: zero, or anything with a positive sign. -/
def IsNotNegative : UnpackedFloat → Prop
  | .infinity .positive | .zero _ | .finite .positive _ _ _ => True
  | _ => False

theorem isNotNegative_iff (f : UnpackedFloat) :
    IsNotNegative f ↔ f.isNaN = false ∧ orderKey (.zero .positive) ≤ orderKey f := by
  rcases f with (_ | _) | _ | _ | ⟨(_ | _), m, e, _⟩ <;>
    simp [IsNotNegative, UnpackedFloat.isNaN, orderKey, Prod.Lex.le_iff]

theorem isNotNegative_ofFields {e : BitVec 8} (m : BitVec 23) (h : e.toNat ≠ 255) :
    IsNotNegative (ofFields 0#1 e m) := by
  have hsign : Sign.ofBitVec 0#1 = .positive := rfl
  unfold ofFields
  rw [hsign, if_neg h]
  split_ifs <;> trivial

/-- Packing keeps a value from falling below zero. -/
theorem isNotNegative_unpack_pack {f : UnpackedFloat} (h : IsNotNegative f) :
    IsNotNegative (unpack .binary32 (pack .binary32 f)) := by
  rcases f with (_ | _) | _ | sign | ⟨(_ | _), m, e, hm⟩
  · exact h.elim
  · exact (unpack_packedInfinity .positive).symm ▸ trivial
  · exact h.elim
  · rw [pack, unpack_packedZero]
    trivial
  · exact h.elim
  · rw [unpack_pack_finite]
    split_ifs
    · trivial
    · exact isNotNegative_ofFields _ (by rw [BitVec.toNat_ofNat]; omega)
    · exact isNotNegative_ofFields _ (by decide)

/-! ## Roundings of numbers that are not below zero -/

theorem isNotNegative_roundWithAccuracy (m : Nat) (e : Int) (accuracy : Accuracy) :
    IsNotNegative (roundWithAccuracy .binary32 .positive m e accuracy) := by
  unfold roundWithAccuracy
  dsimp only
  split_ifs <;> trivial

theorem normalize_natCast {spec : Format} {m : Nat} (hm : 0 < m) (e : Int) (zeroSign : Sign) :
    UnpackedFloat.normalize spec m e zeroSign = UnpackedFloat.round spec .positive m e := by
  have hgt : compare (m : Int) 0 = .gt := by
    rw [compare_gt_iff_gt]
    omega
  simp only [UnpackedFloat.normalize, hgt, Int.toNat_natCast]

theorem isNotNegative_normalize (m : Nat) (e : Int) :
    IsNotNegative (UnpackedFloat.normalize .binary32 m e .positive) := by
  rcases Nat.eq_zero_or_pos m with rfl | hm
  · trivial
  · rw [normalize_natCast hm]
    exact isNotNegative_roundWithAccuracy _ _ _

theorem isNotNegative_div {x : UnpackedFloat} (hx : IsNotNegative x) {m : Nat} {e : Int}
    (hm : 0 < m) :
    IsNotNegative (UnpackedFloat.div .binary32 x (.finite .positive m e hm)) := by
  rcases x with (_ | _) | _ | _ | ⟨(_ | _), m', e', _⟩
  · exact hx.elim
  · trivial
  · exact hx.elim
  · trivial
  · exact hx.elim
  · exact isNotNegative_roundWithAccuracy _ _ _

end Multigrid
