import Multigrid.Proofs.Scalar.Comparison
import Multigrid.Proofs.Scalar.Packing

/-!
# The part of a value

The band of a row ends at a fixed part of an extreme.  An extreme that is kept has to lie outside of
the band, so its part must not be beyond it.  In exact arithmetic that is plain; for a
floating-point format the product is rounded, and it may be so small that digits are lost or none
are left.

The ratio is below a quarter.  With the least exponent of the format, the significand falls at least
to one below the old one, and rounding adds one at most.  With any other exponent, the exponent
falls by two, and the digit that rounding may add takes back one of them.  So a part of a finite
value is zero or has a place between zero and the value, and a word has room for it.

## Main definitions

* `IsRepresentable`, `HasRoom`: values for which the words of a format have room
* `IsRatio`: a ratio below a quarter
* `BandOrder`: the laws of comparison that a band rests on

## Main results

* `hasRoom_unpack`, `unpack_pack_of_isRepresentable`: words and the values that they stand for
* `roundWithAccuracy_part`: a part of a value, rounded
* `instBandOrderFloat`, `instBandOrderFloat32`, `instBandOrderRat`: the two floating-point formats
  and the rationals obey the laws -/

namespace Multigrid

open Float.Model (UnpackedFloat Format totalExponent)
open Float.Model.UnpackedFloat

/-! ## Values and words -/

/-- A significand and an exponent for which a word of the format has room. -/
structure IsRepresentable (spec : Format) (m : Nat) (e : Int) : Prop where
  /-- The significand has at most as many digits as the format. -/
  lt_two_pow : m < 2 ^ spec.mantissaBits
  /-- The exponent is at least the least one. -/
  minExponent_le : spec.minExponent ≤ e
  /-- Only the least exponent goes with fewer digits. -/
  two_pow_le_or : 2 ^ spec.mantissaBitsWithoutImplicit ≤ m ∨ e = spec.minExponent
  /-- The exponent field is not full. -/
  exponent_lt : e + spec.exponentBias + spec.mantissaBitsWithoutImplicit + 1 <
    (2 ^ spec.exponentBits : Nat)

/-- Finite values for which a word of the format has room. -/
def HasRoom (spec : Format) : UnpackedFloat → Prop
  | .finite _ m e _ => IsRepresentable spec m e
  | _ => True

variable {spec : Format}

theorem minExponent_eq (spec : Format) :
    spec.minExponent = 1 - spec.exponentBias - spec.mantissaBitsWithoutImplicit := by
  have hpos : 0 < 2 ^ (spec.exponentBits - 1) := Nat.two_pow_pos _
  have hcast : (2 : Int) ^ (spec.exponentBits - 1) = (2 ^ (spec.exponentBits - 1) : Nat) := by
    norm_cast
  simp only [Format.minExponent, Format.exponentBias, Format.mantissaBits, hcast]
  omega

theorem two_pow_mantissaBits (spec : Format) :
    2 ^ spec.mantissaBits = 2 * 2 ^ spec.mantissaBitsWithoutImplicit := by
  rw [Format.mantissaBits, pow_add, pow_one]

theorem toNat_one_append_eq {k : Nat} (mantissa : BitVec k) :
    (1#1 ++ mantissa).toNat = 2 ^ k + mantissa.toNat := by
  rw [BitVec.toNat_append]
  simpa [Nat.one_shiftLeft] using (Nat.two_pow_add_eq_or_of_lt mantissa.isLt 1).symm

theorem eq_neg_one_iff {k : Nat} {exponent : BitVec k} :
    exponent = -1#k ↔ exponent.toNat + 1 = 2 ^ k := by
  have hlt := exponent.isLt
  rw [BitVec.neg_one_eq_allOnes, ← BitVec.toNat_inj, BitVec.toNat_allOnes]
  omega

/-- Words have room for the values that they stand for. -/
theorem hasRoom_unpack (hspec : 2 ≤ spec.exponentBits) (word : BitVec spec.numBits) :
    HasRoom spec (unpack spec word) := by
  have hmin := minExponent_eq spec
  have htwo := two_pow_mantissaBits spec
  have hfour : 2 ^ 2 ≤ 2 ^ spec.exponentBits := Nat.pow_le_pow_right (by decide) hspec
  fun_cases unpack with
  | case1 => trivial
  | case2 => trivial
  | case3 => trivial
  | case4 mantissa exponent e sign s hfull hzero hne =>
    have hlt := mantissa.isLt
    have he : e = -(spec.exponentBias + spec.mantissaBitsWithoutImplicit) := by
      simp [e, exponent, hzero]
    exact ⟨by omega, by omega, .inr (by omega), by omega⟩
  | case5 mantissa exponent e sign s hfull hzero =>
    have hlt : mantissa.toNat < 2 ^ spec.mantissaBitsWithoutImplicit := mantissa.isLt
    have happend := toNat_one_append_eq mantissa
    have hpos : exponent.toNat ≠ 0 := fun h => hzero (BitVec.toNat_inj.mp h)
    have hmost : exponent.toNat + 1 ≠ 2 ^ spec.exponentBits := mt eq_neg_one_iff.mpr hfull
    have hbelow := exponent.isLt
    refine ⟨?_, by omega, .inl ?_, by omega⟩ <;> rw [happend] <;> omega

theorem eq_zero_iff {k : Nat} {field : BitVec k} : field = 0#k ↔ field.toNat = 0 := by
  rw [← BitVec.toNat_inj, BitVec.toNat_ofNat, Nat.zero_mod]

theorem finite_congr {s : Sign} {m m' : Nat} {e e' : Int} {hm : 0 < m} {hm' : 0 < m'}
    (hmm : m = m') (hee : e = e') : UnpackedFloat.finite s m e hm = .finite s m' e' hm' := by
  subst hmm hee
  rfl

/-- Packing loses nothing of a value for which a word has room. -/
theorem unpack_pack_of_isRepresentable (s : Sign) {m : Nat} {e : Int} (hm : 0 < m)
    (h : IsRepresentable spec m e) :
    unpack spec (pack spec (.finite s m e hm)) = .finite s m e hm := by
  have hmin := minExponent_eq spec
  have htwo := two_pow_mantissaBits spec
  obtain ⟨hlt, hle, hfull, hexp⟩ := h
  have hdigits : m.log2 + 1 = spec.mantissaBits ↔ 2 ^ spec.mantissaBitsWithoutImplicit ≤ m := by
    have hbits : spec.mantissaBits = spec.mantissaBitsWithoutImplicit + 1 := Nat.add_comm _ _
    rw [hbits, Nat.add_right_cancel_iff, Nat.log2_eq_iff hm.ne', ← hbits]
    exact and_iff_left hlt
  obtain ⟨field, hfield⟩ : ∃ field : Nat,
      e + spec.exponentBias + spec.mantissaBitsWithoutImplicit = field :=
    ⟨_, (Int.toNat_of_nonneg (by omega)).symm⟩
  have hroom : field + 1 < 2 ^ spec.exponentBits := by omega
  simp only [pack, hfield, Int.toNat_natCast, if_neg (Nat.not_le.mpr hroom)]
  split_ifs with hnormal
  · -- the leading digit of the significand is implicit
    have hmantissa := hdigits.mp hnormal
    have htoNat : (BitVec.ofNat spec.exponentBits field).toNat = field := by
      rw [BitVec.toNat_ofNat, Nat.mod_eq_of_lt (by omega)]
    have hne : BitVec.ofNat spec.exponentBits field ≠ -1#_ := by
      rw [Ne, eq_neg_one_iff, htoNat]
      exact hroom.ne
    have hpos : BitVec.ofNat spec.exponentBits field ≠ 0#_ := by
      rw [Ne, eq_zero_iff, htoNat]
      omega
    simp only [unpack, unpackMantissa_packComponents, unpackExponent_packComponents,
      unpackSign_packComponents, Sign.ofBitVec_toBitVec, if_neg hne, if_neg hpos]
    apply finite_congr
    · rw [toNat_one_append_eq, BitVec.toNat_ofNat, Nat.mod_eq_sub_mod hmantissa,
        Nat.mod_eq_of_lt (by omega)]
      omega
    · omega
  · have hmantissa : m < 2 ^ spec.mantissaBitsWithoutImplicit := by
      rw [hdigits] at hnormal
      omega
    have htoNat : (BitVec.ofNat spec.mantissaBitsWithoutImplicit m).toNat = m := by
      rw [BitVec.toNat_ofNat, Nat.mod_eq_of_lt hmantissa]
    have hne : (0#(spec.exponentBits)) ≠ -1#_ := by
      have hone : 1 < 2 ^ spec.exponentBits := Nat.one_lt_two_pow spec.he.ne'
      rw [Ne, eq_neg_one_iff, BitVec.toNat_ofNat, Nat.zero_mod]
      omega
    have hpos : BitVec.ofNat spec.mantissaBitsWithoutImplicit m ≠ 0#_ := by
      rw [Ne, eq_zero_iff, htoNat]
      exact hm.ne'
    simp only [unpack, unpackMantissa_packComponents, unpackExponent_packComponents,
      unpackSign_packComponents, Sign.ofBitVec_toBitVec, if_neg hne, if_true, dif_neg hpos]
    apply finite_congr htoNat
    rw [BitVec.toNat_ofNat, Nat.zero_mod]
    omega

/-! ## Rounding -/

/-- The first shift of a rounding leads to the exponent that it aims at. -/
theorem shiftToTargetExponent_first {m : Nat} {e t : Int}
    (ht : spec.targetExponent (totalExponent m e) = t) (he : e ≤ t) :
    (shiftToTargetExponent spec m e .exact).1.mantissa = m / 2 ^ (t - e).toNat ∧
      (shiftToTargetExponent spec m e .exact).2 = t := by
  rw [shiftToTargetExponent, ht, shiftToExponent, mantissa_shiftRight]
  refine ⟨rfl, ?_⟩
  simp only
  omega

/-- The second shift takes a digit back that rounding has added. -/
theorem shiftToTargetExponent_second {m : Nat} {e : Int} (hm : m ≤ 2 ^ spec.mantissaBits)
    (he : spec.minExponent ≤ e) :
    (shiftToTargetExponent spec m e .exact).1.mantissa =
        (if m < 2 ^ spec.mantissaBits then m else 2 ^ spec.mantissaBitsWithoutImplicit) ∧
      (shiftToTargetExponent spec m e .exact).2 =
        if m < 2 ^ spec.mantissaBits then e else e + 1 := by
  have htwo := two_pow_mantissaBits spec
  split_ifs with hlt
  · have hle : spec.targetExponent (totalExponent m e) ≤ e := by
      have hlog : m.log2 + 1 ≤ spec.mantissaBits := by
        by_cases hzero : m = 0
        · rw [hzero, Nat.log2_zero, Format.mantissaBits]
          omega
        · exact (Nat.log2_lt hzero).mpr hlt
      rw [Format.targetExponent, totalExponent]
      omega
    have hnone : (spec.targetExponent (totalExponent m e) - e).toNat = 0 := by omega
    rw [shiftToTargetExponent, shiftToExponent, hnone, mantissa_shiftRight, pow_zero, Nat.div_one]
    exact ⟨rfl, Int.add_zero e⟩
  · obtain rfl : m = 2 ^ spec.mantissaBits := by omega
    have hnext : spec.targetExponent (totalExponent (2 ^ spec.mantissaBits) e) = e + 1 := by
      rw [Format.targetExponent, totalExponent, Nat.log2_two_pow]
      omega
    have hfirst := shiftToTargetExponent_first hnext (by omega)
    have hone : (e + 1 - e).toNat = 1 := by omega
    rw [hone, pow_one, htwo, Nat.mul_div_cancel_left _ (by decide), ← htwo] at hfirst
    exact hfirst

/-- A rounded significand, and the digit that rounding may have added. -/
theorem roundWithAccuracy_eq_dite (s : Sign) {m r : Nat} {e t : Int}
    (ht : spec.targetExponent (totalExponent m e) = t) (he : e ≤ t)
    (hr : (shiftToTargetExponent spec m e .exact).1.roundedMantissa = r)
    (hle : r ≤ 2 ^ spec.mantissaBits) (hmin : spec.minExponent ≤ t) :
    roundWithAccuracy spec s m e .exact =
      if h : r = 0 then .zero s
      else if r < 2 ^ spec.mantissaBits then .finite s r t (Nat.pos_of_ne_zero h)
      else .finite s (2 ^ spec.mantissaBitsWithoutImplicit) (t + 1) (Nat.two_pow_pos _) := by
  subst hr
  obtain ⟨-, hexponent⟩ := shiftToTargetExponent_first ht he
  obtain ⟨hmantissa', hexponent'⟩ := shiftToTargetExponent_second hle hmin
  have hpos := Nat.two_pow_pos spec.mantissaBitsWithoutImplicit
  by_cases hlt : (shiftToTargetExponent spec m e .exact).1.roundedMantissa < 2 ^ spec.mantissaBits
  · rw [if_pos hlt] at hmantissa' hexponent'
    simp only [roundWithAccuracy, hexponent, hmantissa', hexponent', if_pos hlt]
  · rw [if_neg hlt] at hmantissa' hexponent'
    have hne := (Nat.two_pow_pos spec.mantissaBits).trans_le (Nat.not_lt.mp hlt)
    simp only [roundWithAccuracy, hexponent, hmantissa', hexponent', if_neg hlt, dif_neg hpos.ne',
      dif_neg hne.ne']

/-- A rounded significand is the shifted one, or one more. -/
theorem exists_roundWithAccuracy_eq_dite (s : Sign) {m : Nat} {e t : Int}
    (ht : spec.targetExponent (totalExponent m e) = t) (he : e ≤ t) :
    ∃ r, m / 2 ^ (t - e).toNat ≤ r ∧ r ≤ m / 2 ^ (t - e).toNat + 1 ∧
      (r ≤ 2 ^ spec.mantissaBits → spec.minExponent ≤ t →
        roundWithAccuracy spec s m e .exact =
          if h : r = 0 then .zero s
          else if r < 2 ^ spec.mantissaBits then .finite s r t (Nat.pos_of_ne_zero h)
          else .finite s (2 ^ spec.mantissaBitsWithoutImplicit) (t + 1) (Nat.two_pow_pos _)) := by
  obtain ⟨hmantissa, -⟩ := shiftToTargetExponent_first ht he
  obtain ⟨hlow, hhigh⟩ := roundedMantissa_bounds (shiftToTargetExponent spec m e .exact).1
  rw [hmantissa] at hlow hhigh
  exact ⟨_, hlow, hhigh, roundWithAccuracy_eq_dite s ht he rfl⟩

/-! ## Parts of a value -/

/-- A ratio below a quarter, with a significand of full width. -/
structure IsRatio (spec : Format) (m : Nat) (e : Int) : Prop where
  /-- The significand has as many digits as the format. -/
  log2_eq : m.log2 = spec.mantissaBitsWithoutImplicit
  /-- The digits end behind the second place after the point. -/
  exponent_le : spec.mantissaBits + e ≤ -2

theorem log2_mul_bounds {m m' : Nat} (hm : m ≠ 0) (hm' : m' ≠ 0) :
    m.log2 + m'.log2 ≤ (m * m').log2 ∧ (m * m').log2 ≤ m.log2 + m'.log2 + 1 := by
  obtain ⟨hlow, hhigh⟩ := (Nat.log2_eq_iff hm).mp rfl
  obtain ⟨hlow', hhigh'⟩ := (Nat.log2_eq_iff hm').mp rfl
  have hne : m * m' ≠ 0 := Nat.mul_ne_zero hm hm'
  refine ⟨(Nat.le_log2 hne).mpr ?_, Nat.le_of_lt_succ ((Nat.log2_lt hne).mpr ?_)⟩
  · rw [pow_add]
    exact Nat.mul_le_mul hlow hlow'
  · have hmul := Nat.mul_lt_mul'' hhigh hhigh'
    rw [← pow_add] at hmul
    exact hmul.trans_eq (by congr 1; omega)

/-- The leading digits of a significand, and how many they are. -/
theorem div_two_pow_bounds {m p k : Nat} (hm : m ≠ 0) (hk : m.log2 ≤ p + k) :
    m / 2 ^ k < 2 ^ (p + 1) ∧ (m.log2 = p + k → 2 ^ p ≤ m / 2 ^ k) := by
  obtain ⟨hlow, hhigh⟩ := (Nat.log2_eq_iff hm).mp rfl
  constructor
  · rw [Nat.div_lt_iff_lt_mul (Nat.two_pow_pos k), ← pow_add]
    exact hhigh.trans_le (Nat.pow_le_pow_right (by decide) (by omega))
  · intro heq
    rw [Nat.le_div_iff_mul_le (Nat.two_pow_pos k), ← pow_add, ← heq]
    exact hlow

/-- A part of a value, rounded: zero, or a value that is not larger. -/
theorem roundWithAccuracy_part (s : Sign) {m r : Nat} {e c : Int} (hm : 0 < m)
    (h : IsRepresentable spec m e) (hratio : IsRatio spec r c) :
    roundWithAccuracy spec s (m * r) (e + c) .exact = .zero s ∨
      ∃ m' e' h', roundWithAccuracy spec s (m * r) (e + c) .exact = .finite s m' e' h' ∧
        IsRepresentable spec m' e' ∧ (e' < e ∨ e' = e ∧ m' ≤ m) := by
  obtain ⟨hlt, hmin, hfull, hexp⟩ := h
  obtain ⟨hlog, hend⟩ := hratio
  have htwo := two_pow_mantissaBits spec
  have hbits : spec.mantissaBits = spec.mantissaBitsWithoutImplicit + 1 := Nat.add_comm _ _
  have hr : r ≠ 0 := by
    rintro rfl
    have hpos := spec.hm
    rw [Nat.log2_zero] at hlog
    omega
  have hlogm : m.log2 < spec.mantissaBits := (Nat.log2_lt hm.ne').mpr hlt
  have hne : m * r ≠ 0 := Nat.mul_ne_zero hm.ne' hr
  obtain ⟨hlow, hhigh⟩ := log2_mul_bounds hm.ne' hr
  obtain ⟨t, ht⟩ : ∃ t, spec.targetExponent (totalExponent (m * r) (e + c)) = t := ⟨_, rfl⟩
  have htmax : t = max ((m * r).log2 + 1 + (e + c) - spec.mantissaBits) spec.minExponent := by
    rw [← ht, Format.targetExponent, totalExponent]
  obtain ⟨k, hk⟩ : ∃ k : Nat, t - (e + c) = k := ⟨_, (Int.toNat_of_nonneg (by omega)).symm⟩
  obtain ⟨q, hq, hq', hround⟩ := exists_roundWithAccuracy_eq_dite s ht (by omega)
  rw [hk, Int.toNat_natCast] at hq hq'
  obtain ⟨hsmall, hlarge⟩ :=
    div_two_pow_bounds (p := spec.mantissaBitsWithoutImplicit) (k := k) hne (by omega)
  rw [← hbits] at hsmall
  rw [hround (by omega) (by omega)]
  by_cases hleast : e = spec.minExponent
  · -- the exponent is kept, and the significand falls at least to one below the old one
    have hte : t = e := by omega
    have hlt' : m * r / 2 ^ k < m := by
      have hrk : r < 2 ^ k := (Nat.log2_lt hr).mp (by omega)
      rw [Nat.div_lt_iff_lt_mul (Nat.two_pow_pos k)]
      exact Nat.mul_lt_mul_of_pos_left hrk hm
    split_ifs with hzero hwidth
    · exact .inl rfl
    · exact .inr ⟨q, t, Nat.pos_of_ne_zero hzero, rfl,
        ⟨hwidth, by omega, .inr (by omega), by omega⟩, .inr ⟨hte, by omega⟩⟩
    · omega
  · -- the exponent falls at least by one, and by two before a digit may be added
    have hwide : 2 ^ spec.mantissaBitsWithoutImplicit ≤ m := hfull.resolve_right hleast
    have hlogm' : spec.mantissaBitsWithoutImplicit ≤ m.log2 := (Nat.le_log2 hm.ne').mpr hwide
    have hte : t + 1 ≤ e := by omega
    split_ifs with hzero hwidth
    · exact .inl rfl
    · refine .inr ⟨q, t, Nat.pos_of_ne_zero hzero, rfl, ⟨hwidth, by omega, ?_, by omega⟩,
        .inl (by omega)⟩
      by_cases hend' : t = spec.minExponent
      · exact .inr hend'
      · exact .inl ((hlarge (by omega)).trans hq)
    · refine .inr ⟨_, t + 1, Nat.two_pow_pos _, rfl,
        ⟨by omega, by omega, .inl le_rfl, by omega⟩, ?_⟩
      rcases hte.lt_or_eq with hlt' | heq
      · exact .inl hlt'
      · exact .inr ⟨heq, hwide⟩

/-- The product of a value with a ratio lies between zero and the value. -/
theorem orderKey_mul_ratio (hspec : 2 ≤ spec.exponentBits) (word : BitVec spec.numBits) {r : Nat}
    {c : Int} {hr : 0 < r} (hratio : IsRatio spec r c)
    (hnan : (unpack spec word).isNaN = false) {f : UnpackedFloat}
    (hf : f = unpack spec (pack spec
      (UnpackedFloat.mul spec (unpack spec word) (.finite .positive r c hr)))) :
    (orderKey (.zero .positive) ≤ orderKey (unpack spec word) →
      orderKey f ≤ orderKey (unpack spec word)) ∧
    (orderKey (unpack spec word) ≤ orderKey (.zero .positive) →
      orderKey (unpack spec word) ≤ orderKey f) := by
  have hroom := hasRoom_unpack hspec word
  subst hf
  generalize unpack spec word = x at *
  rcases x with s | _ | s | ⟨s, m, e, hm⟩
  · -- an infinity is its own part
    have hmul : UnpackedFloat.mul spec (.infinity s) (.finite .positive r c hr) = .infinity s := by
      cases s <;> rfl
    rw [hmul, pack, unpack_packedInfinity]
    exact ⟨fun _ => le_rfl, fun _ => le_rfl⟩
  · cases hnan
  · have hmul : UnpackedFloat.mul spec (.zero s) (.finite .positive r c hr) = .zero s := by
      cases s <;> rfl
    rw [hmul, pack, unpack_packedZero]
    exact ⟨fun _ => le_rfl, fun _ => le_rfl⟩
  · have hmul : UnpackedFloat.mul spec (.finite s m e hm) (.finite .positive r c hr) =
        roundWithAccuracy spec s (m * r) (e + c) .exact := by
      cases s <;> rfl
    rw [hmul]
    rcases roundWithAccuracy_part s hm hroom hratio with hzero | ⟨m', e', hm', hround, hroom', hle⟩
    · rw [hzero, pack, unpack_packedZero]
      exact ⟨fun h => h, fun h => h⟩
    · rw [hround, unpack_pack_of_isRepresentable s hm' hroom']
      cases s <;> simp [orderKey, Prod.Lex.le_iff] <;> omega

/-! ## The laws -/

/-- The laws of comparison that a band rests on: the part of an extreme up to which entries are
dropped lies between zero and the extreme. -/
class BandOrder (V : Type) [Arith V] : Prop extends ValueOrder V where
  /-- A part of a value that is not below zero. -/
  mul_ratio_le {a : V} : 0 ≤ a → a * (0.2 : V) ≤ a
  /-- A part of a value that is not above zero. -/
  le_mul_ratio {a : V} : a ≤ 0 → a ≤ a * (0.2 : V)

instance instBandOrderRat : BandOrder Rat where
  mul_ratio_le h := mul_le_of_le_one_right (α := Rat) h (by norm_num : (0.2 : Rat) ≤ 1)
  le_mul_ratio h := le_mul_of_le_one_right (R := Rat) h (by norm_num : (0.2 : Rat) ≤ 1)

section Floating

variable {V : Type} [Arith V] [ValueOrder V] {unpacked : V → UnpackedFloat}

variable (spec unpacked) in
/-- A type whose values are packed into the words of a format obeys the laws. -/
theorem bandOrder_of_unpacked (hspec : 2 ≤ spec.exponentBits)
    (hle : ∀ a b : V, a ≤ b ↔ (unpacked a).isNaN = false ∧ (unpacked b).isNaN = false ∧
      orderKey (unpacked a) ≤ orderKey (unpacked b))
    (hmul : ∀ a b : V, unpacked (a * b) =
      unpack spec (pack spec (UnpackedFloat.mul spec (unpacked a) (unpacked b))))
    (hword : ∀ a : V, ∃ word, unpacked a = unpack spec word)
    (hzero : unpacked 0 = .zero .positive)
    (hratio : ∃ r c, ∃ hr : 0 < r, IsRatio spec r c ∧
      unpacked (0.2 : V) = .finite .positive r c hr) : BandOrder V := by
  obtain ⟨r, c, hr, hratio, hunpacked⟩ := hratio
  have hpart (a : V) (ha : a ≤ a) :
      (orderKey (unpacked 0) ≤ orderKey (unpacked a) →
        orderKey (unpacked (a * 0.2)) ≤ orderKey (unpacked a)) ∧
      (orderKey (unpacked a) ≤ orderKey (unpacked 0) →
        orderKey (unpacked a) ≤ orderKey (unpacked (a * 0.2))) := by
    obtain ⟨word, hword⟩ := hword a
    rw [le_self_iff hle, hword] at ha
    rw [hzero, hmul, hunpacked, hword]
    exact orderKey_mul_ratio hspec word hratio ha rfl
  have hcomparable (a : V) (ha : a ≤ a) : (unpacked (a * 0.2)).isNaN = false :=
    (le_self_iff hle _).mp (ValueOrder.mul_ratio ha)
  constructor
  · intro a h
    have ha := (ValueOrder.le_self h).2
    exact (hle _ _).mpr ⟨hcomparable a ha, (le_self_iff hle a).mp ha,
      (hpart a ha).1 ((hle _ _).mp h).2.2⟩
  · intro a h
    have ha := (ValueOrder.le_self h).1
    exact (hle _ _).mpr ⟨(le_self_iff hle a).mp ha, hcomparable a ha,
      (hpart a ha).2 ((hle _ _).mp h).2.2⟩

instance instBandOrderFloat32 : BandOrder Float32 :=
  bandOrder_of_unpacked .binary32 (fun x => x.toModel.unpack) (by decide) float32_le_iff
    (fun _ _ => rfl) (fun _ => ⟨_, rfl⟩) rfl
    ⟨13421773, -26, by decide, ⟨by decide +kernel, by decide⟩, rfl⟩

instance instBandOrderFloat : BandOrder Float :=
  bandOrder_of_unpacked .binary64 (fun x => x.toModel.unpack) (by decide) float_le_iff
    (fun _ _ => rfl) (fun _ => ⟨_, rfl⟩) rfl
    ⟨7205759403792794, -55, by decide, ⟨by decide +kernel, by decide⟩, rfl⟩

end Floating

end Multigrid
