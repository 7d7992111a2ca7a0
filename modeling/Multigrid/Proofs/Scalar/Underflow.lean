import Multigrid.Proofs.Scalar.RoundedOrder

/-!
# Products that are rounded to zero

The product of two finite values is their exact product, rounded.  It is a zero if the exact product
is at most half of the least value above zero, and only then: a number above the half is nearer to
that value, and at the half itself zero is the even neighbour.  For two scalar types that says when
a product of values other than zero is other than zero as well.

## Main definitions

* `packedProduct`: the value of the word for a product
* `IsNonzero`: values that are comparable and not zero
* `Words`: scalar types whose values are the words of a format
* `Words.isFinite`, `Words.number`: finite values and the numbers that they stand for

## Main results

* `packed_eq_zero_iff`: numbers that are rounded to zero
* `packedProduct_eq_zero_iff`: products of finite values
* `Words.mul_nonzero_iff`: products of scalars other than zero
* `Words.number_le_abs_number`: magnitudes
-/

namespace Multigrid

open Float.Model (UnpackedFloat Format totalExponent)
open Float.Model.UnpackedFloat

variable {spec : Format}

/-! ## Numbers that are rounded to zero -/

theorem packed_eq_zero_iff_eq_zero {x : ℚ} {r : ℕ} {t : ℤ} (h : IsRounding spec x r t) (s : Sign) :
    (∃ s', packed spec s r t = .zero s') ↔ r = 0 := by
  rcases packed_cases h with ⟨hr, hpacked⟩ | ⟨m, e, hm, hme, hpacked⟩
  · exact ⟨fun _ => hr, fun _ => ⟨s, hpacked s⟩⟩
  · have hpos := Nat.two_pow_pos spec.mantissaBits
    rw [hpacked]
    constructor
    · rintro ⟨s', hs'⟩
      split_ifs at hs'
    · omega

/-- A number is rounded to zero if and only if it is at most half of the least value above zero. -/
theorem packed_eq_zero_iff {x : ℚ} {r : ℕ} {t : ℤ} (h : IsRounding spec x r t) (hx : 0 < x)
    (s : Sign) : (∃ s', packed spec s r t = .zero s') ↔ x ≤ 2 ^ (spec.minExponent - 1) := by
  rw [packed_eq_zero_iff_eq_zero h]
  have hmin := h.minExponent_le
  by_cases hleast : t = spec.minExponent
  · rw [h.nearest.eq_zero_iff (by positivity), ← hleast, zpow_neg, ← div_eq_mul_inv,
      div_le_iff₀ (by positivity), zpow_sub₀ (by norm_num), zpow_one, div_mul_eq_mul_div, one_mul]
  · -- with any other exponent the significand has all of its digits
    have hlow := h.two_zpow_le_or.resolve_right hleast
    have hr := (Nat.two_pow_pos spec.mantissaBitsWithoutImplicit).trans_le (h.two_pow_le hlow)
    have hlt : (2 : ℚ) ^ (spec.minExponent - 1) < x :=
      (zpow_lt_zpow_right₀ (by norm_num) (by omega)).trans_le hlow
    exact ⟨fun hzero => absurd hzero hr.ne', fun hle => absurd hle hlt.not_ge⟩

/-! ## Products of words -/

/-- The value of the word for the product of two words. -/
def packedProduct (spec : Format) (a b : BitVec spec.numBits) : UnpackedFloat :=
  unpack spec (pack spec (UnpackedFloat.mul spec (unpack spec a) (unpack spec b)))

theorem minExponent_nonpos (spec : Format) : spec.minExponent ≤ 0 := by
  have hmin := minExponent_eq spec
  have hpos := spec.hm
  omega

/-- The exponents of two factors add up to one that is at most the one of the product. -/
theorem add_le_targetExponent {m m' : ℕ} {e e' : ℤ} (hm : m ≠ 0)
    (hm' : m' ≠ 0) (h : IsRepresentable spec m e) (h' : IsRepresentable spec m' e') :
    e + e' ≤ spec.targetExponent (totalExponent (m * m') (e + e')) := by
  have hmin := minExponent_nonpos spec
  have hbits : spec.mantissaBits = spec.mantissaBitsWithoutImplicit + 1 := Nat.add_comm _ _
  obtain ⟨hlow, -⟩ := log2_mul_bounds hm hm'
  rw [Format.targetExponent, totalExponent]
  rcases h.two_pow_le_or with hfull | hleast
  · have hlog := (Nat.le_log2 hm).mpr hfull
    omega
  · rcases h'.two_pow_le_or with hfull' | hleast'
    · have hlog := (Nat.le_log2 hm').mpr hfull'
      omega
    · omega

theorem abs_apply (s : Sign) (m : ℕ) : |((s.apply m : ℤ) : ℚ)| = m := by
  cases s <;> simp [Sign.apply]

/-- The product of finite values is zero if and only if the exact product is at most half of the
least value above zero. -/
theorem packedProduct_eq_zero_iff (hspec : 2 ≤ spec.exponentBits) {a b : BitVec spec.numBits}
    (ha : (unpack spec a).isFinite) (hb : (unpack spec b).isFinite) :
    (∃ s, packedProduct spec a b = .zero s) ↔
      |exactValue (unpack spec a) * exactValue (unpack spec b)| ≤ 2 ^ (spec.minExponent - 1) := by
  have hroom := hasRoom_unpack hspec a
  have hroom' := hasRoom_unpack hspec b
  unfold packedProduct
  generalize unpack spec a = f at *
  generalize unpack spec b = g at *
  have hhalf : (0 : ℚ) ≤ 2 ^ (spec.minExponent - 1) := by positivity
  -- a factor that is zero makes both products zero
  have hzero {sign : Sign} (hmul : UnpackedFloat.mul spec f g = .zero sign)
      (hvalue : exactValue f * exactValue g = 0) :
      (∃ s, unpack spec (pack spec (UnpackedFloat.mul spec f g)) = .zero s) ↔
        |exactValue f * exactValue g| ≤ 2 ^ (spec.minExponent - 1) := by
    rw [hmul, hvalue, pack, unpack_packedZero, abs_zero]
    exact ⟨fun _ => hhalf, fun _ => ⟨sign, rfl⟩⟩
  rcases f with s | _ | s | ⟨s, m, e, hm⟩ <;> rcases g with s' | _ | s' | ⟨s', m', e', hm'⟩
  any_goals contradiction
  · exact hzero rfl (zero_mul _)
  · exact hzero rfl (zero_mul _)
  · exact hzero rfl (mul_zero _)
  · obtain ⟨r, t, hr, hround⟩ := exists_isRounding_roundWithAccuracy (s * s')
      (Nat.mul_ne_zero hm.ne' hm'.ne') (add_le_targetExponent hm.ne' hm'.ne' hroom hroom')
    have hmul : UnpackedFloat.mul spec (.finite s m e hm) (.finite s' m' e' hm') =
        carry spec (s * s') r t := hround
    have habs : |exactValue (.finite s m e hm) * exactValue (.finite s' m' e' hm')| =
        (m * m' : ℕ) * 2 ^ (e + e') := by
      rw [exactValue, exactValue, abs_mul, abs_mul, abs_mul, abs_apply, abs_apply,
        abs_of_pos (show (0 : ℚ) < 2 ^ e by positivity),
        abs_of_pos (show (0 : ℚ) < 2 ^ e' by positivity), zpow_add₀ (by norm_num)]
      push_cast
      ring
    rw [hmul, habs]
    exact packed_eq_zero_iff hr (by positivity) (s * s')

/-- Neither of no value at all nor zero. -/
def IsNonzero (f : UnpackedFloat) : Prop := f.isNaN = false ∧ ∀ s, f ≠ .zero s

theorem isNonzero_iff (f : UnpackedFloat) :
    IsNonzero f ↔ f.isNaN = false ∧ orderKey f ≠ orderKey (.zero .positive) := by
  rcases f with (_ | _) | _ | _ | ⟨(_ | _), m, e, _⟩ <;>
    simp [IsNonzero, UnpackedFloat.isNaN, orderKey]

theorem isNaN_mul_of_finite {f g : UnpackedFloat} (hf : f.isFinite) (hg : g.isFinite) :
    (UnpackedFloat.mul spec f g).isNaN = false := by
  rcases f with s | _ | s | ⟨s, m, e, hm⟩ <;> rcases g with s' | _ | s' | ⟨s', m', e', hm'⟩
  any_goals contradiction
  any_goals rfl
  exact isNaN_mul_finite rfl s' e' hm'

theorem IsNonzero.cases {f : UnpackedFloat} (h : IsNonzero f) :
    (∃ s, f = .infinity s) ∨ ∃ s m e hm, f = .finite s m e hm := by
  rcases f with s | _ | s | ⟨s, m, e, hm⟩
  · exact .inl ⟨s, rfl⟩
  · cases h.1
  · exact absurd rfl (h.2 s)
  · exact .inr ⟨s, m, e, hm, rfl⟩

/-- The product of an infinity and a value that is not zero is an infinity. -/
theorem exists_mul_eq_infinity (spec : Format) {f g : UnpackedFloat} (hf : IsNonzero f)
    (hg : IsNonzero g) (h : ¬ (f.isFinite ∧ g.isFinite)) :
    ∃ s, UnpackedFloat.mul spec f g = .infinity s := by
  rcases hf.cases with ⟨s, rfl⟩ | ⟨s, m, e, hm, rfl⟩ <;>
    rcases hg.cases with ⟨s', rfl⟩ | ⟨s', m', e', hm', rfl⟩
  · exact ⟨s * s', rfl⟩
  · exact ⟨s * s', rfl⟩
  · exact ⟨s * s', rfl⟩
  · exact absurd ⟨rfl, rfl⟩ h

/-- The product of two values that are not zero is zero if and only if both are finite and their
exact product is at most half of the least value above zero. -/
theorem isNonzero_packedProduct_iff (hspec : 2 ≤ spec.exponentBits) {a b : BitVec spec.numBits}
    (ha : IsNonzero (unpack spec a)) (hb : IsNonzero (unpack spec b)) :
    IsNonzero (packedProduct spec a b) ↔
      ((unpack spec a).isFinite → (unpack spec b).isFinite → 2 ^ (spec.minExponent - 1) <
        |exactValue (unpack spec a) * exactValue (unpack spec b)|) := by
  by_cases hfinite : (unpack spec a).isFinite ∧ (unpack spec b).isFinite
  · obtain ⟨hfa, hfb⟩ := hfinite
    have hnan : (packedProduct spec a b).isNaN = false :=
      isNaN_unpack_pack hspec (isNaN_mul_of_finite hfa hfb)
    have hzero := packedProduct_eq_zero_iff hspec hfa hfb
    rw [IsNonzero, ← not_exists, hzero, not_le]
    exact ⟨fun h _ _ => h.2, fun h => ⟨hnan, h hfa hfb⟩⟩
  · obtain ⟨s, hs⟩ := exists_mul_eq_infinity spec ha hb hfinite
    rw [packedProduct, hs, pack, unpack_packedInfinity]
    exact ⟨fun _ hfa hfb => absurd ⟨hfa, hfb⟩ hfinite, fun _ => ⟨rfl, fun _ h => by cases h⟩⟩

/-! ## Scalar types -/

/-- A scalar type whose values are the words of a format. -/
class Words (V : Type) [Arith V] where
  /-- The format. -/
  format : Format
  /-- The exponent has room for more than zero and the infinities. -/
  two_le_exponentBits : 2 ≤ format.exponentBits
  /-- The word of a value. -/
  word : V → BitVec format.numBits
  /-- Values are compared by their places. -/
  lt_iff {a b : V} : a < b ↔
    (unpack format (word a)).isNaN = false ∧ (unpack format (word b)).isNaN = false ∧
      orderKey (unpack format (word a)) < orderKey (unpack format (word b))
  /-- Zero. -/
  unpack_zero : unpack format (word 0) = .zero .positive
  /-- Negation. -/
  unpack_neg (a : V) : unpack format (word (-a)) =
    unpack format (pack format (unpack format (word a)).neg)
  /-- Multiplication. -/
  unpack_mul (a b : V) : unpack format (word (a * b)) = packedProduct format (word a) (word b)

instance instWordsFloat32 : Words Float32 where
  format := .binary32
  two_le_exponentBits := by decide
  word x := x.toModel.toBits.toBitVec
  lt_iff := float32_lt_iff _ _
  unpack_zero := rfl
  unpack_neg _ := rfl
  unpack_mul _ _ := rfl

instance instWordsFloat : Words Float where
  format := .binary64
  two_le_exponentBits := by decide
  word x := x.toModel.toBits.toBitVec
  lt_iff := float_lt_iff _ _
  unpack_zero := rfl
  unpack_neg _ := rfl
  unpack_mul _ _ := rfl

namespace Words

variable {V : Type} [Arith V] [Words V]

/-- The value of a word. -/
def unpacked (x : V) : UnpackedFloat := unpack (format V) (word x)

/-- Is the value neither an infinity nor of no value at all? -/
def isFinite (x : V) : Bool := (unpacked x).isFinite

/-- The number that a finite value stands for. -/
def number (x : V) : ℚ := exactValue (unpacked x)

theorem isNonzero_unpacked_iff (x : V) : IsNonzero (unpacked x) ↔ x < 0 ∨ 0 < x := by
  rw [lt_iff, lt_iff, unpack_zero, isNonzero_iff, unpacked]
  have hzero : (UnpackedFloat.zero .positive).isNaN = false := rfl
  rw [ne_iff_lt_or_gt]
  simp only [hzero, true_and]
  tauto

/-- The product of two values that are not zero is zero if and only if both are finite and their
exact product is at most half of the least value above zero. -/
theorem mul_nonzero_iff {x y : V} (hx : x < 0 ∨ 0 < x) (hy : y < 0 ∨ 0 < y) :
    (x * y < 0 ∨ 0 < x * y) ↔
      (isFinite x → isFinite y →
        2 ^ ((format V).minExponent - 1) < |number x * number y|) := by
  rw [← isNonzero_unpacked_iff] at hx hy ⊢
  rw [unpacked, unpack_mul]
  exact isNonzero_packedProduct_iff two_le_exponentBits hx hy

/-- Negation changes the sign only. -/
theorem number_neg {x : V} (h : isFinite x) : isFinite (-x) ∧ number (-x) = -number x := by
  have hroom := hasRoom_unpack two_le_exponentBits (word x)
  rw [isFinite, number, number, unpacked, unpacked, unpack_neg]
  rw [isFinite, unpacked] at h
  generalize unpack (format V) (word x) = f at h hroom
  rcases f with s | _ | s | ⟨s, m, e, hm⟩
  · cases h
  · cases h
  · rw [UnpackedFloat.neg, pack, unpack_packedZero]
    exact ⟨rfl, neg_zero.symm⟩
  · rw [UnpackedFloat.neg, unpack_pack_of_isRepresentable (-s) hm hroom]
    refine ⟨rfl, ?_⟩
    cases s <;> simp [exactValue, Sign.apply]

theorem number_le_number {x y : V} (hx : isFinite x) (hy : isFinite y) (h : x < y) :
    number x ≤ number y :=
  exactValue_le_of_orderKey_le two_le_exponentBits hx hy (lt_iff.mp h).2.2.le

/-- A value that exceeds another one in magnitude stands for a number that is at least as large. -/
theorem number_le_abs_number {x y : V} (hx : isFinite x) (hy : isFinite y)
    (h : x < Arith.magnitude y) : number x ≤ |number y| := by
  unfold Arith.magnitude at h
  split_ifs at h with hneg
  · obtain ⟨hfinite, hnumber⟩ := number_neg hy
    rw [← abs_neg, ← hnumber]
    exact (number_le_number hx hfinite h).trans (le_abs_self _)
  · exact (number_le_number hx hy h).trans (le_abs_self _)

end Words

end Multigrid
