import Multigrid.Proofs.Scalar.BandRatio

/-!
# Rounding to nearest

A result is rounded by shifting its significand to the right until it fits.  Behind the significand
stand two bits: the digit that was shifted out last, and whether any digit before that was not zero.
Together they tell on which side of the middle between two significands the exact result lies, and
that is kept by every shift.  So the rounded significand is the integer nearest to the exact one,
with ties to even, at the exponent that the format asks for.

## Main definitions

* `IsNearest`: nearest integers, with ties to even
* `Locates`: what a significand and the two bits behind it say about a number
* `IsRounding`: the significand and the exponent that a number is rounded to
* `carry`: the value for a rounded significand

## Main results

* `IsNearest.mono`, `IsRounding.lt_or_le`: rounding keeps the order
* `Locates.shiftRight`, `Locates.isNearest`: shifts, and the significand that is left in the end
* `exists_isRounding_roundWithAccuracy`, `exists_isRounding_round`: results are rounded to nearest
-/

namespace Multigrid

open Float.Model (UnpackedFloat Format totalExponent)
open Float.Model.UnpackedFloat

variable {spec : Format}

/-! ## Integers nearest to a number -/

/-- An integer nearest to `x`, the even one if there are two. -/
structure IsNearest (x : ℚ) (r : ℕ) : Prop where
  /-- The distance is at most a half. -/
  abs_sub_le : |x - r| ≤ 1 / 2
  /-- Halfway between two integers the even one counts. -/
  even_of_eq : |x - r| = 1 / 2 → Even r

namespace IsNearest

variable {x y : ℚ} {r s : ℕ}

theorem natCast (m : ℕ) : IsNearest m m where
  abs_sub_le := by norm_num
  even_of_eq h := by norm_num at h

/-- Rounding keeps the order. -/
theorem mono (hx : IsNearest x r) (hy : IsNearest y s) (h : x ≤ y) : r ≤ s := by
  by_contra hlt
  have hstep : (s : ℚ) + 1 ≤ r := by exact_mod_cast Nat.lt_of_not_le hlt
  obtain ⟨hlow, -⟩ := abs_le.mp hx.abs_sub_le
  obtain ⟨-, hhigh⟩ := abs_le.mp hy.abs_sub_le
  -- both numbers would lie halfway between two neighbours, of which one is odd
  have hrs : r = s + 1 := by
    have hcast : (r : ℚ) = s + 1 := by linarith
    exact_mod_cast hcast
  have hr : Even r := hx.even_of_eq (by rw [abs_eq (by norm_num)]; right; linarith)
  have hs : Even s := hy.even_of_eq (by rw [abs_eq (by norm_num)]; left; linarith)
  rw [hrs, Nat.even_add_one] at hr
  exact hr hs

theorem eq_zero_iff (h : IsNearest x r) (hx : 0 ≤ x) : r = 0 ↔ x ≤ 1 / 2 := by
  constructor
  · rintro rfl
    have habs := h.abs_sub_le
    rw [Nat.cast_zero, sub_zero, abs_of_nonneg hx] at habs
    exact habs
  · intro hle
    have hzero : IsNearest (1 / 2) 0 := ⟨by norm_num, fun _ => Even.zero⟩
    exact Nat.le_zero.mp (h.mono hzero hle)

end IsNearest

/-! ## Residual bits -/

/-- A significand and the two bits behind it tell where `x` lies. -/
def Locates (em : ExtendedMantissa) (x : ℚ) : Prop :=
  match em.roundBit, em.stickyBit with
  | false, false => x = em.mantissa
  | false, true => em.mantissa < x ∧ x < em.mantissa + 1 / 2
  | true, false => x = em.mantissa + 1 / 2
  | true, true => em.mantissa + 1 / 2 < x ∧ x < em.mantissa + 1

namespace Locates

variable {em : ExtendedMantissa} {x : ℚ}

theorem isNearest (h : Locates em x) : IsNearest x em.roundedMantissa := by
  obtain ⟨m, round, sticky⟩ := em
  cases round <;> cases sticky <;>
    simp only [Locates, ExtendedMantissa.roundedMantissa, ExtendedMantissa.accuracy,
      Accuracy.roundToNearestEven] at h ⊢
  · rw [h]
    exact .natCast m
  · obtain ⟨hlow, hhigh⟩ := h
    have habs : |x - m| < 1 / 2 := abs_lt.mpr ⟨by linarith, by linarith⟩
    exact ⟨habs.le, fun heq => absurd heq habs.ne⟩
  · -- a tie goes to the even neighbour
    rcases Nat.mod_two_eq_zero_or_one m with hm | hm
    · rw [hm, Nat.add_zero, h]
      exact ⟨by norm_num, fun _ => Nat.even_iff.mpr hm⟩
    · rw [hm, h]
      refine ⟨by push_cast; norm_num, fun _ => Nat.even_iff.mpr (by omega)⟩
  · obtain ⟨hlow, hhigh⟩ := h
    have habs : |x - (m + 1 : ℕ)| < 1 / 2 := by
      push_cast
      exact abs_lt.mpr ⟨by linarith, by linarith⟩
    exact ⟨habs.le, fun heq => absurd heq habs.ne⟩

theorem shiftRightOne (h : Locates em x) : Locates em.shiftRightOne (x / 2) := by
  obtain ⟨m, round, sticky⟩ := em
  -- the last digit becomes the round bit, and both bits behind it the sticky one
  obtain ⟨k, rfl | rfl⟩ := Nat.even_or_odd' m
  · have hshift : ExtendedMantissa.shiftRightOne ⟨2 * k, round, sticky⟩ =
        ⟨k, false, round || sticky⟩ := by
      simp [ExtendedMantissa.shiftRightOne]
    rw [hshift]
    cases round <;> cases sticky <;>
      simp only [Locates, Bool.or_true, Bool.or_false, Nat.cast_mul, Nat.cast_ofNat] at h ⊢
    · linarith
    · constructor <;> linarith
    · constructor <;> linarith
    · constructor <;> linarith
  · have hshift : ExtendedMantissa.shiftRightOne ⟨2 * k + 1, round, sticky⟩ =
        ⟨k, true, round || sticky⟩ := by
      simp [ExtendedMantissa.shiftRightOne]
      omega
    rw [hshift]
    cases round <;> cases sticky <;>
      simp only [Locates, Bool.or_true, Bool.or_false, Nat.cast_add, Nat.cast_mul,
        Nat.cast_ofNat, Nat.cast_one] at h ⊢
    · linarith
    · constructor <;> linarith
    · constructor <;> linarith
    · constructor <;> linarith

theorem shiftRight (h : Locates em x) (k : ℕ) : Locates (em >>> k) (x / 2 ^ k) := by
  show Locates (k.repeat ExtendedMantissa.shiftRightOne em) _
  induction k with
  | zero => simpa [Nat.repeat] using h
  | succ k ih =>
    rw [Nat.repeat, pow_succ, ← div_div]
    exact ih.shiftRightOne

end Locates

/-! ## Rounded significands -/

/-- The value of sign `s` with a rounded significand at the exponent `t`.  A digit that rounding has
added is taken back. -/
def carry (spec : Format) (s : Sign) (r : ℕ) (t : ℤ) : UnpackedFloat :=
  if h : r = 0 then .zero s
  else if r < 2 ^ spec.mantissaBits then .finite s r t (Nat.pos_of_ne_zero h)
  else .finite s (2 ^ spec.mantissaBitsWithoutImplicit) (t + 1) (Nat.two_pow_pos _)

/-- The significand and the exponent of `x` rounded to a format. -/
structure IsRounding (spec : Format) (x : ℚ) (r : ℕ) (t : ℤ) : Prop where
  /-- The significand is nearest to `x` at the exponent. -/
  nearest : IsNearest (x * 2 ^ (-t)) r
  /-- The digits before the point suffice for `x`. -/
  lt_two_zpow : x < 2 ^ (t + spec.mantissaBits)
  /-- The exponent is at least the least one. -/
  minExponent_le : spec.minExponent ≤ t
  /-- Only with the least exponent the first digit may be zero. -/
  two_zpow_le_or : 2 ^ (t + spec.mantissaBitsWithoutImplicit) ≤ x ∨ t = spec.minExponent

namespace IsRounding

variable {x x' : ℚ} {r r' : ℕ} {t t' : ℤ}

theorem le_two_pow (h : IsRounding spec x r t) : r ≤ 2 ^ spec.mantissaBits := by
  refine h.nearest.mono (.natCast _) ?_
  have hlt := h.lt_two_zpow
  rw [zpow_add₀ (by norm_num), mul_comm] at hlt
  rw [zpow_neg, ← div_eq_mul_inv, div_le_iff₀ (by positivity)]
  exact_mod_cast hlt.le

theorem two_pow_le (h : IsRounding spec x r t)
    (hx : 2 ^ (t + spec.mantissaBitsWithoutImplicit) ≤ x) :
    2 ^ spec.mantissaBitsWithoutImplicit ≤ r := by
  refine (IsNearest.natCast _).mono h.nearest ?_
  rw [zpow_add₀ (by norm_num), mul_comm] at hx
  rw [zpow_neg, ← div_eq_mul_inv, le_div_iff₀ (by positivity)]
  exact_mod_cast hx

/-- A larger number has a larger exponent, or the same and a significand that is not smaller. -/
theorem lt_or_le (h : IsRounding spec x r t) (h' : IsRounding spec x' r' t') (hx : x ≤ x') :
    t < t' ∨ t = t' ∧ r ≤ r' := by
  have hle : t ≤ t' := by
    rcases h.two_zpow_le_or with hlow | hleast
    · have hlt := (hlow.trans hx).trans_lt h'.lt_two_zpow
      rw [zpow_lt_zpow_iff_right₀ (by norm_num)] at hlt
      have hbits : spec.mantissaBits = spec.mantissaBitsWithoutImplicit + 1 := Nat.add_comm _ _
      omega
    · rw [hleast]
      exact h'.minExponent_le
  rcases hle.lt_or_eq with hlt | rfl
  · exact .inl hlt
  · exact .inr ⟨rfl, h.nearest.mono h'.nearest (mul_le_mul_of_nonneg_right hx (by positivity))⟩

/-- A number is rounded in one way only. -/
theorem unique (h : IsRounding spec x r t) (h' : IsRounding spec x r' t') : t = t' ∧ r = r' := by
  have hle := h.lt_or_le h' le_rfl
  have hge := h'.lt_or_le h le_rfl
  omega

/-- A significand and an exponent for which a word has room stand for a number that is rounded to
them. -/
theorem of_isRepresentable {m : ℕ} {e : ℤ} (h : IsRepresentable spec m e) :
    IsRounding spec (m * 2 ^ e) m e where
  nearest := by
    rw [mul_assoc, ← zpow_add₀ (by norm_num), add_neg_cancel, zpow_zero, mul_one]
    exact .natCast m
  lt_two_zpow := by
    rw [zpow_add₀ (by norm_num), mul_comm]
    have hlt : (m : ℚ) < 2 ^ spec.mantissaBits := by exact_mod_cast h.lt_two_pow
    exact mul_lt_mul_of_pos_left (by exact_mod_cast hlt) (by positivity)
  minExponent_le := h.minExponent_le
  two_zpow_le_or := by
    refine h.two_pow_le_or.imp_left fun hle => ?_
    rw [zpow_add₀ (by norm_num), mul_comm]
    have hcast : (2 : ℚ) ^ spec.mantissaBitsWithoutImplicit ≤ m := by exact_mod_cast hle
    exact mul_le_mul_of_nonneg_right (by exact_mod_cast hcast) (by positivity)

end IsRounding

/-- A number that is given by a significand and an exponent lies between two powers of two. -/
theorem two_zpow_totalExponent_bounds {m : ℕ} (hm : m ≠ 0) (e : ℤ) :
    (2 : ℚ) ^ (totalExponent m e - 1) ≤ m * 2 ^ e ∧ (m : ℚ) * 2 ^ e < 2 ^ totalExponent m e := by
  obtain ⟨hlow, hhigh⟩ := (Nat.log2_eq_iff hm).mp rfl
  have hlow' : (2 : ℚ) ^ m.log2 ≤ m := by exact_mod_cast hlow
  have hhigh' : (m : ℚ) < 2 ^ (m.log2 + 1) := by exact_mod_cast hhigh
  constructor
  · rw [totalExponent, add_right_comm, add_sub_cancel_right, zpow_add₀ (by norm_num), zpow_natCast]
    exact mul_le_mul_of_nonneg_right hlow' (by positivity)
  · rw [totalExponent, zpow_add₀ (by norm_num)]
    exact mul_lt_mul_of_pos_right (by exact_mod_cast hhigh') (by positivity)

/-- Rounding leads to the exponent that is aimed at and to the significand that is nearest there. -/
theorem exists_isRounding_roundWithAccuracy (s : Sign) {m : ℕ} {e : ℤ} (hm : m ≠ 0)
    (he : e ≤ spec.targetExponent (totalExponent m e)) :
    ∃ r t, IsRounding spec (m * 2 ^ e) r t ∧
      roundWithAccuracy spec s m e .exact = carry spec s r t := by
  obtain ⟨t, ht⟩ : ∃ t, spec.targetExponent (totalExponent m e) = t := ⟨_, rfl⟩
  rw [ht] at he
  have hbits : spec.mantissaBits = spec.mantissaBitsWithoutImplicit + 1 := Nat.add_comm _ _
  have htmax : t = max (totalExponent m e - spec.mantissaBits) spec.minExponent := by
    rw [← ht, Format.targetExponent]
  obtain ⟨hlow, hhigh⟩ := two_zpow_totalExponent_bounds hm e
  obtain ⟨k, hk⟩ : ∃ k : ℕ, t - e = k := ⟨_, (Int.toNat_of_nonneg (by omega)).symm⟩
  have hshift : (shiftToTargetExponent spec m e .exact).1 =
      ExtendedMantissa.ofMantissaAndAccuracy m .exact >>> k := by
    rw [shiftToTargetExponent, ht, shiftToExponent, hk, Int.toNat_natCast]
  have hrounding : IsRounding spec (m * 2 ^ e)
      (shiftToTargetExponent spec m e .exact).1.roundedMantissa t := by
    refine ⟨?_, hhigh.trans_le ?_, by omega, ?_⟩
    · have hvalue : (m : ℚ) * 2 ^ e * 2 ^ (-t) = m / 2 ^ k := by
        rw [mul_assoc, ← zpow_add₀ (by norm_num), ← sub_eq_add_neg, ← neg_sub, hk, zpow_neg,
          zpow_natCast, ← div_eq_mul_inv]
      rw [hshift, hvalue]
      have hexact : Locates (ExtendedMantissa.ofMantissaAndAccuracy m .exact) m := rfl
      exact (hexact.shiftRight k).isNearest
    · exact zpow_le_zpow_right₀ (by norm_num) (by omega)
    · rcases max_choice (totalExponent m e - spec.mantissaBits) spec.minExponent with h | h
      · exact .inl ((zpow_le_zpow_right₀ (by norm_num) (by omega)).trans hlow)
      · exact .inr (htmax.trans h)
  exact ⟨_, t, hrounding,
    roundWithAccuracy_eq_dite s ht he rfl hrounding.le_two_pow hrounding.minExponent_le⟩

variable (spec) in
theorem exists_isRounding_round (s : Sign) {m : ℕ} (hm : m ≠ 0) (e : ℤ) :
    ∃ r t, IsRounding spec (m * 2 ^ e) r t ∧ UnpackedFloat.round spec s m e = carry spec s r t := by
  obtain ⟨k, hk⟩ : ∃ k : ℕ, (e - spec.targetExponent (totalExponent m e)).toNat = k := ⟨_, rfl⟩
  have hround : UnpackedFloat.round spec s m e =
      roundWithAccuracy spec s (m <<< k) (e - k) .exact := by
    rw [← hk]
    rfl
  have hne : m <<< k ≠ 0 := by
    rw [Nat.shiftLeft_eq]
    positivity
  have hvalue : ((m <<< k : ℕ) : ℚ) * 2 ^ (e - k) = m * 2 ^ e := by
    rw [Nat.shiftLeft_eq, zpow_sub₀ (by norm_num)]
    push_cast
    rw [zpow_natCast]
    field_simp
  rw [hround, ← hvalue]
  apply exists_isRounding_roundWithAccuracy s hne
  rw [totalExponent_shiftLeft hm]
  omega

end Multigrid
