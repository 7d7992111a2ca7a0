import Multigrid.Proofs.Scalar.Nearest

/-!
# The order of rounded values

Words are compared by sign, exponent and significand, while rounding is about the numbers that they
stand for.  Both orders agree: a larger number is rounded to a word that is not smaller, and a
finite word is what its own number is rounded to.  The sum of two finite values is their exact sum,
rounded, so adding a value keeps the order, also where a sum is rounded to an infinity or back to
what it was.

## Main definitions

* `packed`: the value of the word for a rounded significand
* `roundedKey`: the place of the word that a signed number is rounded to
* `exactValue`: the number that a finite value stands for
* `packedSum`: the value of the word for a sum

## Main results

* `roundedKey_le`: rounding keeps the order of signed numbers
* `exactValue_le_of_orderKey_le`: the order of finite values
* `exists_roundedKey_add`: the sum of finite values is their exact sum, rounded
* `orderKey_packedSum_le`, `orderKey_le_packedSum`: adding a finite value
-/

namespace Multigrid

open Float.Model (UnpackedFloat Format totalExponent)
open Float.Model.UnpackedFloat

variable {spec : Format}

/-! ## Words of rounded values -/

/-- A rounded value is read back from its word, unless it is too large for the format. -/
theorem unpack_pack_of_rounded (s : Sign) {m : ℕ} {e : ℤ} (hm : 0 < m)
    (hlt : m < 2 ^ spec.mantissaBits) (hmin : spec.minExponent ≤ e)
    (hfull : 2 ^ spec.mantissaBitsWithoutImplicit ≤ m ∨ e = spec.minExponent) :
    unpack spec (pack spec (.finite s m e hm)) =
      if e + spec.exponentBias + spec.mantissaBitsWithoutImplicit + 1 < (2 ^ spec.exponentBits : ℕ)
      then .finite s m e hm else .infinity s := by
  split_ifs with hroom
  · exact unpack_pack_of_isRepresentable s hm ⟨hlt, hmin, hfull, hroom⟩
  · have hbig : 2 ^ spec.exponentBits ≤
        (e + spec.exponentBias + spec.mantissaBitsWithoutImplicit).toNat + 1 := by omega
    simp only [pack, if_pos hbig]
    exact unpack_packedInfinity s

/-- The value of the word for a rounded significand. -/
def packed (spec : Format) (s : Sign) (r : ℕ) (t : ℤ) : UnpackedFloat :=
  unpack spec (pack spec (carry spec s r t))

theorem IsRounding.two_pow_le_or {x : ℚ} {r : ℕ} {t : ℤ} (h : IsRounding spec x r t) :
    2 ^ spec.mantissaBitsWithoutImplicit ≤ r ∨ t = spec.minExponent :=
  h.two_zpow_le_or.imp_left h.two_pow_le

/-- A rounded significand is zero, or it gives a word whose significand and exponent are at least
`r` and `t`. -/
theorem packed_cases {x : ℚ} {r : ℕ} {t : ℤ} (h : IsRounding spec x r t) :
    (r = 0 ∧ ∀ s, packed spec s r t = .zero s) ∨
      ∃ m e, ∃ hm : 0 < m, (e = t ∧ m = r ∧ r < 2 ^ spec.mantissaBits ∨
          e = t + 1 ∧ m = 2 ^ spec.mantissaBitsWithoutImplicit ∧ r = 2 ^ spec.mantissaBits) ∧
        ∀ s, packed spec s r t =
          if e + spec.exponentBias + spec.mantissaBitsWithoutImplicit + 1 <
            (2 ^ spec.exponentBits : ℕ) then .finite s m e hm else .infinity s := by
  have htwo := two_pow_mantissaBits spec
  have hle := h.le_two_pow
  have hmin := h.minExponent_le
  by_cases hzero : r = 0
  · refine .inl ⟨hzero, fun s => ?_⟩
    rw [packed, carry, dif_pos hzero, pack, unpack_packedZero]
  by_cases hlt : r < 2 ^ spec.mantissaBits
  · refine .inr ⟨r, t, Nat.pos_of_ne_zero hzero, .inl ⟨rfl, rfl, hlt⟩, fun s => ?_⟩
    rw [packed, carry, dif_neg hzero, if_pos hlt]
    exact unpack_pack_of_rounded s _ hlt hmin h.two_pow_le_or
  · refine .inr ⟨_, t + 1, Nat.two_pow_pos _, .inr ⟨rfl, rfl, by omega⟩, fun s => ?_⟩
    have hpos := Nat.two_pow_pos spec.mantissaBitsWithoutImplicit
    rw [packed, carry, dif_neg hzero, if_neg hlt]
    exact unpack_pack_of_rounded s _ (by omega) (by omega) (.inl le_rfl)

/-- Words for rounded significands keep the order. -/
theorem orderKey_packed_le {x x' : ℚ} {r r' : ℕ} {t t' : ℤ} (h : IsRounding spec x r t)
    (h' : IsRounding spec x' r' t') (hx : x ≤ x') :
    orderKey (packed spec .positive r t) ≤ orderKey (packed spec .positive r' t') := by
  have htwo := two_pow_mantissaBits spec
  have hmin := h.minExponent_le
  have hle' := h'.le_two_pow
  have hfull' := h'.two_pow_le_or
  have hpos := Nat.two_pow_pos spec.mantissaBitsWithoutImplicit
  have horder := h.lt_or_le h' hx
  rcases packed_cases h with ⟨hzero, hpacked⟩ | ⟨m, e, hm, hme, hpacked⟩ <;>
    rcases packed_cases h' with ⟨hzero', hpacked'⟩ | ⟨m', e', hm', hme', hpacked'⟩ <;>
    rw [hpacked, hpacked']
  · split_ifs <;> simp [orderKey, Prod.Lex.le_iff]
  · omega
  · -- a digit that is carried raises the exponent, and only from the largest significand on
    have hlex : e < e' ∨ e = e' ∧ m ≤ m' := by omega
    split_ifs with hroom hroom'
    · simp only [orderKey, Prod.Lex.le_iff]
      simp
      omega
    · simp [orderKey, Prod.Lex.le_iff]
    · omega
    · rfl

/-! ## Signs -/

theorem orderKey_neg_le_iff (f g : UnpackedFloat) :
    orderKey f.neg ≤ orderKey g.neg ↔ orderKey g ≤ orderKey f := by
  rcases f with (_ | _) | _ | _ | ⟨(_ | _), m, e, _⟩ <;>
    rcases g with (_ | _) | _ | _ | ⟨(_ | _), m', e', _⟩ <;>
    simp [UnpackedFloat.neg, orderKey, Prod.Lex.le_iff]
  all_goals omega

theorem packed_negative {x : ℚ} {r : ℕ} {t : ℤ} (h : IsRounding spec x r t) :
    packed spec .negative r t = (packed spec .positive r t).neg := by
  rcases packed_cases h with ⟨-, hpacked⟩ | ⟨m, e, hm, -, hpacked⟩
  · rw [hpacked, hpacked]
    rfl
  · rw [hpacked, hpacked]
    split_ifs <;> rfl

theorem zero_le_orderKey_packed {x : ℚ} {r : ℕ} {t : ℤ} (h : IsRounding spec x r t) :
    orderKey (.zero .positive) ≤ orderKey (packed spec .positive r t) := by
  rcases packed_cases h with ⟨-, hpacked⟩ | ⟨m, e, hm, -, hpacked⟩
  · rw [hpacked]
  · rw [hpacked]
    split_ifs <;> simp [orderKey, Prod.Lex.le_iff]

theorem orderKey_packed_negative_le_zero {x : ℚ} {r : ℕ} {t : ℤ} (h : IsRounding spec x r t) :
    orderKey (packed spec .negative r t) ≤ orderKey (.zero .positive) := by
  rw [packed_negative h]
  exact (orderKey_neg_le_iff _ (.zero .positive)).mpr (zero_le_orderKey_packed h)

/-! ## Signed numbers -/

/-- The place of the word to which a signed significand and an exponent are rounded. -/
def roundedKey (spec : Format) (m e : ℤ) : ℤ ×ₗ (ℤ ×ₗ ℤ) :=
  orderKey (unpack spec (pack spec (UnpackedFloat.normalize spec m e .positive)))

theorem roundedKey_zero (spec : Format) (e : ℤ) :
    roundedKey spec 0 e = orderKey (.zero .positive) := by
  have hzero : UnpackedFloat.normalize spec 0 e .positive = .zero .positive := rfl
  rw [roundedKey, hzero, pack, unpack_packedZero]

theorem normalize_neg_natCast {m : ℕ} (hm : 0 < m) (e : ℤ) (zeroSign : Sign) :
    UnpackedFloat.normalize spec (-m) e zeroSign = UnpackedFloat.round spec .negative m e := by
  have hlt : compare (-m : ℤ) 0 = .lt := by
    rw [compare_lt_iff_lt]
    omega
  simp only [UnpackedFloat.normalize, hlt, neg_neg, Int.toNat_natCast]

theorem exists_roundedKey_natCast (spec : Format) {m : ℕ} (hm : 0 < m) (e : ℤ) :
    ∃ r t, IsRounding spec (m * 2 ^ e) r t ∧
      roundedKey spec m e = orderKey (packed spec .positive r t) := by
  obtain ⟨r, t, h, hround⟩ := exists_isRounding_round spec .positive hm.ne' e
  exact ⟨r, t, h, by rw [roundedKey, normalize_natCast hm, hround, packed]⟩

theorem exists_roundedKey_neg_natCast (spec : Format) {m : ℕ} (hm : 0 < m) (e : ℤ) :
    ∃ r t, IsRounding spec (m * 2 ^ e) r t ∧
      roundedKey spec (-m) e = orderKey (packed spec .negative r t) := by
  obtain ⟨r, t, h, hround⟩ := exists_isRounding_round spec .negative hm.ne' e
  exact ⟨r, t, h, by rw [roundedKey, normalize_neg_natCast hm, hround, packed]⟩

theorem zero_le_roundedKey {m : ℤ} (hm : 0 ≤ m) (e : ℤ) :
    orderKey (.zero .positive) ≤ roundedKey spec m e := by
  lift m to ℕ using hm
  rcases Nat.eq_zero_or_pos m with rfl | hpos
  · exact (roundedKey_zero spec e).ge
  · obtain ⟨r, t, h, hkey⟩ := exists_roundedKey_natCast spec hpos e
    rw [hkey]
    exact zero_le_orderKey_packed h

theorem roundedKey_le_zero {m : ℤ} (hm : m ≤ 0) (e : ℤ) :
    roundedKey spec m e ≤ orderKey (.zero .positive) := by
  obtain ⟨k, rfl⟩ := Int.exists_eq_neg_ofNat hm
  rcases Nat.eq_zero_or_pos k with rfl | hpos
  · exact (roundedKey_zero spec e).le
  · obtain ⟨r, t, h, hkey⟩ := exists_roundedKey_neg_natCast spec hpos e
    rw [hkey]
    exact orderKey_packed_negative_le_zero h

/-- Rounding keeps the order of signed numbers. -/
theorem roundedKey_le (spec : Format) {m m' e e' : ℤ} (h : (m : ℚ) * 2 ^ e ≤ m' * 2 ^ e') :
    roundedKey spec m e ≤ roundedKey spec m' e' := by
  have hpos : (0 : ℚ) < 2 ^ e := by positivity
  have hpos' : (0 : ℚ) < 2 ^ e' := by positivity
  rcases lt_trichotomy m 0 with hm | rfl | hm
  · rcases le_or_gt 0 m' with hm' | hm'
    · exact (roundedKey_le_zero hm.le e).trans (zero_le_roundedKey hm' e')
    · -- two negative numbers are compared by their magnitudes, the other way round
      obtain ⟨k, rfl⟩ := Int.exists_eq_neg_ofNat hm.le
      obtain ⟨k', rfl⟩ := Int.exists_eq_neg_ofNat hm'.le
      obtain ⟨r, t, hr, hkey⟩ := exists_roundedKey_neg_natCast spec (show 0 < k by omega) e
      obtain ⟨r', t', hr', hkey'⟩ :=
        exists_roundedKey_neg_natCast spec (show 0 < k' by omega) e'
      rw [hkey, hkey', packed_negative hr, packed_negative hr', orderKey_neg_le_iff]
      apply orderKey_packed_le hr' hr
      push_cast at h
      linarith
  · rw [Int.cast_zero, zero_mul] at h
    have hm' : 0 ≤ m' := by exact_mod_cast nonneg_of_mul_nonneg_left h hpos'
    rw [roundedKey_zero]
    exact zero_le_roundedKey hm' e'
  · have hm' : 0 < m' := by
      have hlt : (0 : ℚ) < m' * 2 ^ e' := (mul_pos (by exact_mod_cast hm) hpos).trans_le h
      exact_mod_cast pos_of_mul_pos_left hlt hpos'.le
    lift m to ℕ using hm.le
    lift m' to ℕ using hm'.le
    obtain ⟨r, t, hr, hkey⟩ := exists_roundedKey_natCast spec (show 0 < m by omega) e
    obtain ⟨r', t', hr', hkey'⟩ := exists_roundedKey_natCast spec (show 0 < m' by omega) e'
    rw [hkey, hkey']
    exact orderKey_packed_le hr hr' h

/-! ## Exact values -/

/-- The number that a finite value stands for. -/
def exactValue : UnpackedFloat → ℚ
  | .finite s m e _ => (s.apply m : ℤ) * 2 ^ e
  | _ => 0

/-- A finite value is read back from the word that its number is rounded to. -/
theorem exists_roundedKey_eq (hspec : 2 ≤ spec.exponentBits) {word : BitVec spec.numBits}
    (h : (unpack spec word).isFinite) :
    ∃ m e : ℤ, exactValue (unpack spec word) = m * 2 ^ e ∧
      orderKey (unpack spec word) = roundedKey spec m e := by
  have hroom := hasRoom_unpack hspec word
  generalize unpack spec word = f at *
  rcases f with s | _ | s | ⟨s, m, e, hm⟩
  · cases h
  · cases h
  · exact ⟨0, 0, by simp [exactValue], (roundedKey_zero spec 0).symm⟩
  · refine ⟨s.apply m, e, rfl, ?_⟩
    have hself := IsRounding.of_isRepresentable hroom
    -- the only rounding of a number for which a word has room is the number itself
    have hpacked {r : ℕ} {t : ℤ} (hr : IsRounding spec (m * 2 ^ e) r t) :
        packed spec s r t = .finite s m e hm := by
      obtain ⟨rfl, rfl⟩ := hr.unique hself
      rw [packed, carry, dif_neg hm.ne', if_pos hroom.lt_two_pow]
      exact unpack_pack_of_isRepresentable s hm hroom
    cases s with
    | positive =>
      obtain ⟨r, t, hr, hkey⟩ := exists_roundedKey_natCast spec hm e
      exact (congrArg orderKey (hpacked hr)).symm.trans hkey.symm
    | negative =>
      obtain ⟨r, t, hr, hkey⟩ := exists_roundedKey_neg_natCast spec hm e
      exact (congrArg orderKey (hpacked hr)).symm.trans hkey.symm

/-- Values in one place stand for one number. -/
theorem exactValue_eq_of_orderKey_eq {f g : UnpackedFloat} (h : orderKey f = orderKey g) :
    exactValue f = exactValue g := by
  rcases f with (_ | _) | _ | _ | ⟨(_ | _), m, e, _⟩ <;>
    rcases g with (_ | _) | _ | _ | ⟨(_ | _), m', e', _⟩ <;>
    simp_all [orderKey, exactValue]

/-- The order of finite values is the one of the numbers that they stand for. -/
theorem exactValue_le_of_orderKey_le (hspec : 2 ≤ spec.exponentBits)
    {a b : BitVec spec.numBits} (ha : (unpack spec a).isFinite) (hb : (unpack spec b).isFinite)
    (h : orderKey (unpack spec a) ≤ orderKey (unpack spec b)) :
    exactValue (unpack spec a) ≤ exactValue (unpack spec b) := by
  obtain ⟨m, e, hvalue, hkey⟩ := exists_roundedKey_eq hspec ha
  obtain ⟨m', e', hvalue', hkey'⟩ := exists_roundedKey_eq hspec hb
  by_contra hlt
  rw [hvalue, hvalue', not_le] at hlt
  -- numbers the other way round would have one place, and so be equal
  have hle := roundedKey_le spec hlt.le
  rw [← hkey, ← hkey'] at hle
  have heq := exactValue_eq_of_orderKey_eq (le_antisymm h hle)
  rw [hvalue, hvalue'] at heq
  exact hlt.ne' heq

/-! ## Sums -/

theorem isNaN_round (s : Sign) (m : ℕ) (e : ℤ) :
    (UnpackedFloat.round spec s m e).isNaN = false := by
  simp only [UnpackedFloat.round, roundWithAccuracy]
  split_ifs <;> rfl

theorem isNaN_normalize (m e : ℤ) (zeroSign : Sign) :
    (UnpackedFloat.normalize spec m e zeroSign).isNaN = false := by
  unfold UnpackedFloat.normalize
  split
  · exact isNaN_round _ _ _
  · rfl
  · exact isNaN_round _ _ _

theorem unpack_pack_unpack (hspec : 2 ≤ spec.exponentBits) {word : BitVec spec.numBits}
    (h : (unpack spec word).isFinite) :
    unpack spec (pack spec (unpack spec word)) = unpack spec word := by
  have hroom := hasRoom_unpack hspec word
  generalize unpack spec word = f at *
  rcases f with s | _ | s | ⟨s, m, e, hm⟩
  · cases h
  · cases h
  · rw [pack, unpack_packedZero]
  · exact unpack_pack_of_isRepresentable s hm hroom

/-- The value of the word for the sum of two words. -/
def packedSum (spec : Format) (a b : BitVec spec.numBits) : UnpackedFloat :=
  unpack spec (pack spec (UnpackedFloat.add spec (unpack spec a) (unpack spec b)))

/-- Digits that are appended are made up for by the exponent. -/
theorem apply_shiftLeft_mul_zpow (s : Sign) (m : ℕ) {e t : ℤ} (h : t ≤ e) :
    ((s.apply (m <<< (e - t).toNat : ℕ) : ℤ) : ℚ) * 2 ^ t = (s.apply m : ℤ) * 2 ^ e := by
  obtain ⟨k, hk⟩ : ∃ k : ℕ, e - t = k := ⟨_, (Int.toNat_of_nonneg (by omega)).symm⟩
  obtain rfl : e = t + k := by omega
  have hshift : ((s.apply (m <<< k : ℕ) : ℤ) : ℚ) = (s.apply m : ℤ) * 2 ^ k := by
    rw [Nat.shiftLeft_eq]
    cases s <;> simp [Sign.apply]
  rw [hk, Int.toNat_natCast, hshift, zpow_add₀ (by norm_num), zpow_natCast]
  ring

/-- The sum of finite values is their exact sum, rounded. -/
theorem exists_roundedKey_add (hspec : 2 ≤ spec.exponentBits) {a b : BitVec spec.numBits}
    (ha : (unpack spec a).isFinite) (hb : (unpack spec b).isFinite) :
    (packedSum spec a b).isNaN = false ∧
      ∃ m e : ℤ, exactValue (unpack spec a) + exactValue (unpack spec b) = m * 2 ^ e ∧
        orderKey (packedSum spec a b) = roundedKey spec m e := by
  have hself := unpack_pack_unpack hspec ha
  have hself' := unpack_pack_unpack hspec hb
  have hkey := exists_roundedKey_eq hspec ha
  have hkey' := exists_roundedKey_eq hspec hb
  unfold packedSum
  generalize unpack spec a = f at *
  generalize unpack spec b = g at *
  have hzero (s : Sign) : exactValue (.zero s) = 0 := rfl
  rcases f with s | _ | s | ⟨s, m, e, hm⟩ <;> rcases g with s' | _ | s' | ⟨s', m', e', hm'⟩
  any_goals contradiction
  · -- the sum of two zeros is a zero of some sign
    obtain ⟨sign, hadd⟩ : ∃ sign, UnpackedFloat.add spec (.zero s) (.zero s') = .zero sign := by
      simp only [UnpackedFloat.add]
      split_ifs
      · exact ⟨_, rfl⟩
      · exact ⟨_, rfl⟩
    rw [hadd, pack, unpack_packedZero]
    exact ⟨rfl, 0, 0, by simp [hzero], (roundedKey_zero spec 0).symm⟩
  · have hadd : UnpackedFloat.add spec (.zero s) (.finite s' m' e' hm') =
        .finite s' m' e' hm' := rfl
    rw [hadd, hself', hzero, zero_add]
    exact ⟨rfl, hkey'⟩
  · have hadd : UnpackedFloat.add spec (.finite s m e hm) (.zero s') = .finite s m e hm := rfl
    rw [hadd, hself, hzero, add_zero]
    exact ⟨rfl, hkey⟩
  · refine ⟨isNaN_unpack_pack hspec (isNaN_normalize _ _ _), _, min e e', ?_, rfl⟩
    rw [Int.cast_add, add_mul, apply_shiftLeft_mul_zpow s m (min_le_left e e'),
      apply_shiftLeft_mul_zpow s' m' (min_le_right e e')]
    rfl

/-- An infinity absorbs a finite value. -/
theorem packedSum_infinity {a b : BitVec spec.numBits} {s : Sign}
    (ha : unpack spec a = .infinity s) (hb : (unpack spec b).isFinite) :
    packedSum spec a b = .infinity s := by
  rw [packedSum, ha]
  generalize unpack spec b = g at *
  rcases g with s' | _ | s' | ⟨s', m', e', hm'⟩
  · cases hb
  · cases hb
  all_goals exact unpack_packedInfinity s

/-- A value that is a number is finite or an infinity. -/
theorem isFinite_or_eq_infinity {f : UnpackedFloat} (h : f.isNaN = false) :
    f.isFinite = true ∨ ∃ s, f = .infinity s := by
  rcases f with s | _ | s | ⟨s, m, e, hm⟩
  · exact .inr ⟨s, rfl⟩
  · cases h
  · exact .inl rfl
  · exact .inl rfl

theorem orderKey_infinity_negative_le (f : UnpackedFloat) :
    orderKey (.infinity .negative) ≤ orderKey f := by
  rcases f with (_ | _) | _ | _ | ⟨(_ | _), m, e, _⟩ <;> simp [orderKey, Prod.Lex.le_iff]

theorem orderKey_le_infinity_positive (f : UnpackedFloat) :
    orderKey f ≤ orderKey (.infinity .positive) := by
  rcases f with (_ | _) | _ | _ | ⟨(_ | _), m, e, _⟩ <;> simp [orderKey, Prod.Lex.le_iff]

theorem isNaN_packedSum (hspec : 2 ≤ spec.exponentBits) {a b : BitVec spec.numBits}
    (ha : (unpack spec a).isNaN = false) (hb : (unpack spec b).isFinite) :
    (packedSum spec a b).isNaN = false := by
  rcases isFinite_or_eq_infinity ha with hfinite | ⟨s, hs⟩
  · exact (exists_roundedKey_add hspec hfinite hb).1
  · rw [packedSum_infinity hs hb]
    rfl

theorem orderKey_lt_infinity_positive {f : UnpackedFloat} (h : f.isFinite) :
    orderKey f < orderKey (.infinity .positive) := by
  rcases f with (_ | _) | _ | _ | ⟨(_ | _), m, e, _⟩
  any_goals contradiction
  all_goals simp [orderKey, Prod.Lex.lt_iff]

theorem orderKey_infinity_negative_lt {f : UnpackedFloat} (h : f.isFinite) :
    orderKey (.infinity .negative) < orderKey f := by
  rcases f with (_ | _) | _ | _ | ⟨(_ | _), m, e, _⟩
  any_goals contradiction
  all_goals simp [orderKey, Prod.Lex.lt_iff]

/-- Adding a finite value keeps the order. -/
theorem orderKey_packedSum_le (hspec : 2 ≤ spec.exponentBits) {a b c : BitVec spec.numBits}
    (ha : (unpack spec a).isNaN = false) (hb : (unpack spec b).isNaN = false)
    (hc : (unpack spec c).isFinite) (h : orderKey (unpack spec a) ≤ orderKey (unpack spec b)) :
    orderKey (packedSum spec a c) ≤ orderKey (packedSum spec b c) := by
  rcases isFinite_or_eq_infinity ha with hfinite | ⟨s, hs⟩
  · rcases isFinite_or_eq_infinity hb with hfinite' | ⟨_ | _, hs'⟩
    · obtain ⟨-, m, e, hvalue, hkey⟩ := exists_roundedKey_add hspec hfinite hc
      obtain ⟨-, m', e', hvalue', hkey'⟩ := exists_roundedKey_add hspec hfinite' hc
      rw [hkey, hkey']
      apply roundedKey_le
      rw [← hvalue, ← hvalue']
      exact add_le_add_left (exactValue_le_of_orderKey_le hspec hfinite hfinite' h) _
    · rw [hs'] at h
      exact absurd h (orderKey_infinity_negative_lt hfinite).not_ge
    · rw [packedSum_infinity hs' hc]
      exact orderKey_le_infinity_positive _
  · rw [packedSum_infinity hs hc]
    cases s with
    | negative => exact orderKey_infinity_negative_le _
    | positive =>
      -- nothing but the infinity is at least as large
      rw [hs] at h
      rcases isFinite_or_eq_infinity hb with hfinite' | ⟨_ | _, hs'⟩
      · exact absurd h (orderKey_lt_infinity_positive hfinite').not_ge
      · rw [hs'] at h
        exact absurd h (by decide)
      · rw [packedSum_infinity hs' hc]

/-- Adding a finite value that is not below zero does not lead to a smaller value. -/
theorem orderKey_le_packedSum (hspec : 2 ≤ spec.exponentBits) {a b : BitVec spec.numBits}
    (ha : (unpack spec a).isNaN = false) (hb : (unpack spec b).isFinite)
    (hnonneg : 0 ≤ exactValue (unpack spec b)) :
    orderKey (unpack spec a) ≤ orderKey (packedSum spec a b) := by
  rcases isFinite_or_eq_infinity ha with hfinite | ⟨s, hs⟩
  · obtain ⟨m, e, hvalue, hkey⟩ := exists_roundedKey_eq hspec hfinite
    obtain ⟨-, m', e', hvalue', hkey'⟩ := exists_roundedKey_add hspec hfinite hb
    rw [hkey, hkey']
    apply roundedKey_le
    rw [← hvalue, ← hvalue']
    exact le_add_of_nonneg_right hnonneg
  · rw [packedSum_infinity hs hb, hs]

end Multigrid
