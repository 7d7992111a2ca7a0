import Multigrid.Proofs.Scalar.BandRatio
import Multigrid.Proofs.Scalar.Canonical
import Multigrid.Scalar.Conversion

/-!
# Quotients that do not overflow

A summary tells which part of the entries truncation has kept.  The two numbers are exact and may be
as large as they like, so a rounded quotient of such numbers might be too large for the format, and
then there would be no summary.  The part of a whole is at most one, and rounding such a value leads
to zero or to a value for which a word has room.

## Main results

* `round_cases`: a value of moderate size, rounded
* `isInf_nearestQuotient`: the quotient of a part and the whole is finite
-/

namespace Multigrid

open Float.Model (UnpackedFloat Format totalExponent)
open Float.Model.UnpackedFloat

variable {spec : Format}

/-- A value whose leading digit is not at the upper end of the format is rounded to zero, or to a
value for which a word has room. -/
theorem round_cases (hspec : 2 ≤ spec.exponentBits) (s : Sign) {m : Nat} {e : Int} (hm : m ≠ 0)
    (hsize : totalExponent m e + spec.exponentBias + 1 < (2 ^ spec.exponentBits : Nat)) :
    UnpackedFloat.round spec s m e = .zero s ∨
      ∃ m' e' h', UnpackedFloat.round spec s m e = .finite s m' e' h' ∧
        IsRepresentable spec m' e' := by
  have hmin := minExponent_eq spec
  have htwo := two_pow_mantissaBits spec
  have hbits : spec.mantissaBits = spec.mantissaBitsWithoutImplicit + 1 := Nat.add_comm _ _
  have hfour : 2 ^ 2 ≤ 2 ^ spec.exponentBits := Nat.pow_le_pow_right (by decide) hspec
  -- more digits are appended first, so that the exponent is at most the one that is aimed at
  obtain ⟨t, ht⟩ : ∃ t, spec.targetExponent (totalExponent m e) = t := ⟨_, rfl⟩
  have htmax : t = max (totalExponent m e - spec.mantissaBits) spec.minExponent := by
    rw [← ht, Format.targetExponent]
  obtain ⟨k, hk⟩ : ∃ k : Nat, (e - t).toNat = k := ⟨_, rfl⟩
  have hround : UnpackedFloat.round spec s m e =
      roundWithAccuracy spec s (m <<< k) (e - k) .exact := by
    rw [← hk, UnpackedFloat.round, ht]
    rfl
  have htotal := totalExponent_shiftLeft hm e k
  have hne : m <<< k ≠ 0 := by
    rw [Nat.shiftLeft_eq]
    positivity
  have hshifted : spec.targetExponent (totalExponent (m <<< k) (e - k)) = t := by rw [htotal, ht]
  obtain ⟨r, hlow, hhigh, heq⟩ := exists_roundWithAccuracy_eq_dite s hshifted (by omega)
  obtain ⟨l, hl⟩ : ∃ l : Nat, t - (e - k) = l := ⟨_, (Int.toNat_of_nonneg (by omega)).symm⟩
  rw [hl, Int.toNat_natCast] at hlow hhigh
  have hlog : ((m <<< k).log2 : Int) + 1 + (e - k) = totalExponent m e := by
    rw [← htotal, totalExponent]
  obtain ⟨hsmall, hlarge⟩ :=
    div_two_pow_bounds (p := spec.mantissaBitsWithoutImplicit) (k := l) hne (by omega)
  rw [← hbits] at hsmall
  rw [hround, heq (by omega) (by omega)]
  split_ifs with hzero hwidth
  · exact .inl rfl
  · refine .inr ⟨r, t, Nat.pos_of_ne_zero hzero, rfl, hwidth, by omega, ?_, by omega⟩
    by_cases hleast : t = spec.minExponent
    · exact .inr hleast
    · exact .inl ((hlarge (by omega)).trans hlow)
  · -- rounding has added a digit
    exact .inr ⟨_, t + 1, Nat.two_pow_pos _, rfl, by omega, by omega, .inl le_rfl, by omega⟩

/-- A value of moderate size is finite after rounding to binary64. -/
theorem isInf_ofModel_pack_round (s : Sign) {m : Nat} {e : Int} (hm : m ≠ 0)
    (hsize : totalExponent m e < 1024) :
    (Float.ofModel (.pack (UnpackedFloat.round .binary64 s m e))).isInf = false := by
  show (unpack .binary64 (pack .binary64 (UnpackedFloat.round .binary64 s m e))).isInf = false
  have hbits : (2 ^ Format.binary64.exponentBits : Nat) = 2048 := rfl
  have hroom : totalExponent m e + Format.binary64.exponentBias + 1 <
      (2 ^ Format.binary64.exponentBits : Nat) := by
    rw [bias_binary64, hbits]
    omega
  rcases round_cases (by decide) s hm hroom with hzero | ⟨m', e', hm', hfinite, hroom⟩
  · rw [hzero, pack, unpack_packedZero]
    rfl
  · rw [hfinite, unpack_pack_of_isRepresentable s hm' hroom]
    rfl

/-- A part of a whole is at most one, so its quotient by the whole is finite. -/
theorem isInf_nearestQuotient {a : Int} {b : Nat} (hab : a.natAbs ≤ b) :
    (nearestQuotient a b).isInf = false := by
  have hlog : a.natAbs.log2 ≤ b.log2 := by
    rw [Nat.log2_eq_log_two, Nat.log2_eq_log_two]
    exact Nat.log_mono_right hab
  obtain ⟨k, hk⟩ : ∃ k : Nat, (64 : Int) + b.log2 - a.natAbs.log2 = k :=
    ⟨_, (Int.toNat_of_nonneg (by omega)).symm⟩
  have hnone : (-(k : Int)).toNat = 0 := by omega
  unfold nearestQuotient
  dsimp only
  rw [hk, Int.toNat_natCast, hnone, Nat.shiftLeft_zero]
  -- with `k` further digits the quotient is at most two to the power of `k`
  have hquotient : a.natAbs <<< k / b ≤ 2 ^ k := by
    rw [Nat.shiftLeft_eq]
    exact Nat.div_le_of_le_mul (Nat.mul_le_mul_right _ hab)
  obtain ⟨m, hm⟩ : ∃ m, (2 * (a.natAbs <<< k / b) + if a.natAbs <<< k % b = 0 then 0 else 1) = m :=
    ⟨_, rfl⟩
  have hlt : m < 2 ^ (k + 2) := by
    have hpos := Nat.two_pow_pos k
    rw [← hm, pow_add]
    split_ifs <;> omega
  rw [hm]
  by_cases hzero : m = 0
  · rw [if_pos hzero]
    rfl
  · rw [if_neg hzero]
    refine isInf_ofModel_pack_round _ hzero ?_
    have hdigits := (Nat.log2_lt hzero).mpr hlt
    rw [totalExponent]
    omega

end Multigrid
