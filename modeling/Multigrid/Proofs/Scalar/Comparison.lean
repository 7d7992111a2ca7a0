import Multigrid.Proofs.Scalar.Exact
import Multigrid.Proofs.Scalar.Order

/-!
# Comparison of values

Values are compared, scaled and compared again.  A value that is not a number is not comparable, not
even with itself, so a test and the negation of the opposite test may both fail.  On the values that
are comparable the weak order is total, and the strict one is its strict part.

Two zeros of different signs are alike: no comparison tells them apart, and none tells their
multiples apart.  An extreme of a list depends on the order of the list only as far as that, and an
item that is not comparable shows in the extreme wherever it stands.

## Main definitions

* `Arith.Alike`: values that no comparison tells apart
* `ValueOrder`: the laws of comparison
* `IsExtreme`: an extreme of a list

## Main results

* `instValueOrderFloat`, `instValueOrderFloat32`, `instValueOrderRat`: the two floating-point
  formats and the rationals obey the laws
* `isExtreme_foldl_least`, `isExtreme_foldl_greatest`: extremes that are taken one item at a time
* `IsExtreme.alike`: two extremes of the same items
-/

namespace Multigrid

/-! ## The laws -/

/-- Both values are not comparable, or each of them is at most the other. -/
def Arith.Alike {V : Type} [Arith V] (a b : V) : Prop :=
  (¬ a ≤ a ∧ ¬ b ≤ b) ∨ (a ≤ b ∧ b ≤ a)

/-- The laws of comparison.  The ratio is the one that direct interpolation scales extremes by. -/
class ValueOrder (V : Type) [Arith V] : Prop where
  /-- What is compared is comparable with itself. -/
  le_self {a b : V} : a ≤ b → a ≤ a ∧ b ≤ b
  /-- The order is transitive. -/
  le_trans {a b c : V} : a ≤ b → b ≤ c → a ≤ c
  /-- Comparable values are compared one way or the other. -/
  le_total {a b : V} : a ≤ a → b ≤ b → a ≤ b ∨ b ≤ a
  /-- The strict order is the strict part of the weak one. -/
  lt_iff {a b : V} : a < b ↔ a ≤ b ∧ ¬ b ≤ a
  /-- Zero is comparable. -/
  zero_le_zero : (0 : V) ≤ 0
  /-- A fixed part of a comparable value is comparable. -/
  mul_ratio {a : V} : a ≤ a → a * (0.2 : V) ≤ a * (0.2 : V)
  /-- Multiples of values that are alike are alike. -/
  mul_alike {a b : V} (t : V) : Arith.Alike a b → Arith.Alike (a * t) (b * t)

namespace ValueOrder

variable {V : Type} [Arith V] [ValueOrder V] {a b c : V}

theorem le_of_lt (h : a < b) : a ≤ b := (lt_iff.mp h).1

theorem not_le_of_lt (h : a < b) : ¬ b ≤ a := (lt_iff.mp h).2

theorem le_self_of_lt (h : a < b) : a ≤ a ∧ b ≤ b := le_self (le_of_lt h)

theorem lt_of_lt_of_le (hab : a < b) (hbc : b ≤ c) : a < c := by
  refine lt_iff.mpr ⟨le_trans (le_of_lt hab) hbc, fun hca => ?_⟩
  exact not_le_of_lt hab (le_trans hbc hca)

/-- Between comparable values, a test is the negation of the opposite one. -/
theorem not_lt (ha : a ≤ a) (hb : b ≤ b) : ¬ a < b ↔ b ≤ a := by
  rw [lt_iff, not_and_not_right]
  exact ⟨fun h => (le_total ha hb).elim h id, fun h _ => h⟩

/-- A test against one of two values that are alike is a test against the other. -/
theorem lt_congr (h : Arith.Alike a b) : c < a ↔ c < b := by
  rcases h with ⟨ha, hb⟩ | ⟨hab, hba⟩
  · exact ⟨fun h => absurd (le_self_of_lt h).2 ha, fun h => absurd (le_self_of_lt h).2 hb⟩
  · rw [lt_iff, lt_iff]
    exact ⟨fun h => ⟨le_trans h.1 hab, fun h' => h.2 (le_trans hab h')⟩,
      fun h => ⟨le_trans h.1 hba, fun h' => h.2 (le_trans hba h')⟩⟩

end ValueOrder

instance instValueOrderRat : ValueOrder Rat where
  le_self _ := ⟨le_refl (α := Rat) _, le_refl (α := Rat) _⟩
  le_trans h h' := le_trans (α := Rat) h h'
  le_total _ _ := le_total (α := Rat) _ _
  lt_iff := lt_iff_le_not_ge (α := Rat)
  zero_le_zero := le_refl (α := Rat) 0
  mul_ratio _ := le_refl (α := Rat) _
  mul_alike t h := by
    rcases h with ⟨h, -⟩ | ⟨h, h'⟩
    · exact absurd (le_refl (α := Rat) _) h
    · rw [le_antisymm (α := Rat) h h']
      exact .inr ⟨le_refl (α := Rat) _, le_refl (α := Rat) _⟩

/-! ## Floating-point values -/

section Floating

open Float.Model (UnpackedFloat Format)
open Float.Model.UnpackedFloat

/-- A word that is made of a comparable value has a comparable value. -/
theorem isNaN_unpack_pack {spec : Format} (hspec : 2 ≤ spec.exponentBits) {f : UnpackedFloat}
    (hf : f.isNaN = false) : (unpack spec (pack spec f)).isNaN = false := by
  rw [← Bool.not_eq_true, isNaN_unpack_iff_of_valid valid_pack hspec]
  intro hpacked
  have hbits : isNaNBits (pack spec f) = true := hpacked ▸ isNaNBits_packedNaN
  revert hbits
  rw [isNaNBits, decide_eq_true_eq, imp_false]
  -- the exponent field is full for an infinity only, which has no mantissa
  fun_cases pack with
  | case1 => cases hf
  | case2 s => simp [packedInfinity]
  | case3 s =>
    simp [packedZero]
  | case4 s m e hm biasedExponent hbig => simp [packedInfinity]
  | case5 s m e hm actualMantissaBits biasedExponent hsmall hnormal =>
    have hmod : biasedExponent % 2 ^ spec.exponentBits ≠ 2 ^ spec.exponentBits - 1 := by
      rw [Nat.mod_eq_of_lt (by omega)]
      omega
    simp [BitVec.neg_one_eq_allOnes, ← BitVec.toNat_inj, hmod]
  | case6 s m e hm actualMantissaBits biasedExponent hsmall hsubnormal =>
    simp [Nat.pos_iff_ne_zero.1 spec.he]

theorem isNaN_mul_finite {spec : Format} {f : UnpackedFloat} (hf : f.isNaN = false) (s : Sign)
    {m : Nat} (e : Int) (hm : 0 < m) :
    (UnpackedFloat.mul spec f (.finite s m e hm)).isNaN = false := by
  rcases f with _ | _ | _ | _
  · rfl
  · cases hf
  · rfl
  · simp only [UnpackedFloat.mul, roundWithAccuracy]
    split_ifs <;> rfl

/-- The products of a zero are zeros or not comparable, whatever its sign. -/
theorem mul_zero_cases (spec : Format) (t : UnpackedFloat) :
    (∀ s, UnpackedFloat.mul spec (.zero s) t = .notANumber) ∨
      ∃ s', ∀ s, UnpackedFloat.mul spec (.zero s) t = .zero (s * s') := by
  rcases t with _ | _ | s' | ⟨s', _, _, _⟩
  · exact .inl fun _ => rfl
  · exact .inl fun _ => rfl
  · exact .inr ⟨s', fun _ => rfl⟩
  · exact .inr ⟨s', fun _ => rfl⟩

/-- Comparable values in the same place are equal or zeros. -/
theorem eq_or_zero_of_orderKey_eq {a b : UnpackedFloat} (ha : a.isNaN = false)
    (hb : b.isNaN = false) (h : orderKey a = orderKey b) :
    a = b ∨ ∃ s s', a = .zero s ∧ b = .zero s' := by
  rcases a with (_ | _) | _ | _ | ⟨(_ | _), m, e, _⟩ <;>
    rcases b with (_ | _) | _ | _ | ⟨(_ | _), m', e', _⟩ <;>
    simp_all [orderKey, UnpackedFloat.isNaN]

section Unpacked

variable {V : Type} [Arith V] {spec : Format} {unpacked : V → UnpackedFloat}
  (hle : ∀ a b : V, a ≤ b ↔ (unpacked a).isNaN = false ∧ (unpacked b).isNaN = false ∧
    orderKey (unpacked a) ≤ orderKey (unpacked b))

include hle

theorem le_self_iff (a : V) : a ≤ a ↔ (unpacked a).isNaN = false :=
  (hle a a).trans ⟨fun h => h.1, fun h => ⟨h, h, le_refl _⟩⟩

/-- Values that unpack to the same value or to two zeros are alike. -/
theorem alike_of_unpacked {a b : V} (h : unpacked a = unpacked b ∨
    ∃ s s', unpacked a = .zero s ∧ unpacked b = .zero s') : Arith.Alike a b := by
  rw [Arith.Alike, le_self_iff hle, le_self_iff hle, hle, hle]
  rcases h with heq | ⟨s, s', hs, hs'⟩
  · rw [heq]
    cases (unpacked b).isNaN <;> simp
  · rw [hs, hs']
    simp [UnpackedFloat.isNaN, orderKey]

variable (hmul : ∀ a b : V, unpacked (a * b) =
  unpack spec (pack spec (UnpackedFloat.mul spec (unpacked a) (unpacked b))))

include hmul

/-- Multiples of values that are alike are alike. -/
theorem alike_mul {a b : V} (t : V) (h : Arith.Alike a b) : Arith.Alike (a * t) (b * t) := by
  apply alike_of_unpacked hle
  rw [Arith.Alike, le_self_iff hle, le_self_iff hle, hle, hle] at h
  rw [hmul, hmul]
  rcases h with ⟨ha, hb⟩ | ⟨⟨ha, hb, hab⟩, -, -, hba⟩
  · rw [Bool.not_eq_false, isNaN_iff] at ha hb
    exact .inl (by rw [ha, hb])
  · rcases eq_or_zero_of_orderKey_eq ha hb (le_antisymm hab hba) with heq | ⟨s, s', hs, hs'⟩
    · exact .inl (by rw [heq])
    -- two zeros have products with one value that are zeros again, or not comparable
    · rw [hs, hs']
      rcases mul_zero_cases spec (unpacked t) with h | ⟨s'', h⟩
      · exact .inl (by rw [h, h])
      · rw [h, h, pack, pack, unpack_packedZero, unpack_packedZero]
        exact .inr ⟨_, _, rfl, rfl⟩

variable (spec unpacked) in
/-- A type whose values are packed into the words of a format obeys the laws. -/
theorem valueOrder_of_unpacked (hspec : 2 ≤ spec.exponentBits)
    (hlt : ∀ a b : V, a < b ↔ (unpacked a).isNaN = false ∧ (unpacked b).isNaN = false ∧
      orderKey (unpacked a) < orderKey (unpacked b))
    (hzero : (unpacked 0).isNaN = false)
    (hratio : ∃ s m e, ∃ hm : 0 < m, unpacked (0.2 : V) = .finite s m e hm) : ValueOrder V where
  le_self {a b} h := by
    rw [le_self_iff hle, le_self_iff hle]
    exact ⟨((hle a b).mp h).1, ((hle a b).mp h).2.1⟩
  le_trans {a b c} h h' := by
    rw [hle] at h h' ⊢
    exact ⟨h.1, h'.2.1, h.2.2.trans h'.2.2⟩
  le_total {a b} ha hb := by
    rw [le_self_iff hle] at ha hb
    rw [hle, hle]
    exact (le_total _ _).imp (fun h => ⟨ha, hb, h⟩) fun h => ⟨hb, ha, h⟩
  lt_iff {a b} := by
    rw [hlt, hle, hle, lt_iff_le_not_ge]
    grind
  zero_le_zero := (le_self_iff hle 0).mpr hzero
  mul_ratio {a} ha := by
    obtain ⟨s, m, e, hm, hratio⟩ := hratio
    rw [le_self_iff hle] at ha ⊢
    rw [hmul, hratio]
    exact isNaN_unpack_pack hspec (isNaN_mul_finite ha s e hm)
  mul_alike := alike_mul hle hmul

end Unpacked

instance instValueOrderFloat32 : ValueOrder Float32 :=
  valueOrder_of_unpacked .binary32 (fun x => x.toModel.unpack) float32_le_iff (fun _ _ => rfl)
    (by decide) float32_lt_iff rfl ⟨_, _, _, _, rfl⟩

instance instValueOrderFloat : ValueOrder Float :=
  valueOrder_of_unpacked .binary64 (fun x => x.toModel.unpack) float_le_iff (fun _ _ => rfl)
    (by decide) float_lt_iff rfl ⟨_, _, _, _, rfl⟩

end Floating

/-! ## Extremes -/

section Extremes

variable {V : Type} [Arith V]

/-- One of the two directions of the order. -/
def IsDirection (before : V → V → Prop) : Prop :=
  before = (fun a b => a ≤ b) ∨ before = fun a b => b ≤ a

/-- An item that comes before all others, or a value that is not comparable because one of the items
is not. -/
def IsExtreme (before : V → V → Prop) (items : List V) (extreme : V) : Prop :=
  (extreme ∈ items ∧ ∀ x ∈ items, before extreme x) ∨
    (¬ extreme ≤ extreme ∧ ∃ x ∈ items, ¬ x ≤ x)

variable {before : V → V → Prop} {items items' : List V} {a b c : V}

namespace IsDirection

variable (h : IsDirection before)

include h

theorem refl (ha : a ≤ a) : before a a := by
  rcases h with rfl | rfl <;> exact ha

theorem alike (hab : before a b) (hba : before b a) : Arith.Alike a b := by
  rcases h with rfl | rfl
  · exact .inr ⟨hab, hba⟩
  · exact .inr ⟨hba, hab⟩

variable [ValueOrder V]

theorem le_self (hab : before a b) : a ≤ a ∧ b ≤ b := by
  rcases h with rfl | rfl
  · exact ValueOrder.le_self hab
  · exact (ValueOrder.le_self hab).symm

theorem trans (hab : before a b) (hbc : before b c) : before a c := by
  rcases h with rfl | rfl
  · exact ValueOrder.le_trans hab hbc
  · exact ValueOrder.le_trans hbc hab

end IsDirection

/-- An extreme of comparable items is comparable. -/
theorem IsExtreme.le_self (h : IsExtreme before items a) (hitems : ∀ x ∈ items, x ≤ x) :
    a ≤ a := by
  rcases h with ⟨hmem, -⟩ | ⟨-, x, hx, hxx⟩
  · exact hitems a hmem
  · exact absurd (hitems x hx) hxx

variable [ValueOrder V]

/-- A choice between two values, repeated over a list, gives an extreme of the list. -/
theorem isExtreme_foldl (hdirection : IsDirection before) {choose : V → V → V}
    (hchoose : ∀ a b, IsExtreme before [a, b] (choose a b)) (items : List V) (start : V) :
    IsExtreme before (start :: items) (items.foldl choose start) := by
  induction items generalizing start with
  | nil =>
    by_cases hstart : start ≤ start
    · exact .inl ⟨List.mem_singleton_self start, by simpa using hdirection.refl hstart⟩
    · exact .inr ⟨hstart, start, List.mem_singleton_self start, hstart⟩
  | cons x items ih =>
    rw [List.foldl_cons]
    -- what is chosen of the first two items stands for both of them
    rcases hchoose start x, ih (choose start x) with
      ⟨⟨hmem, hfirst⟩ | ⟨hnot, y, hy, hyy⟩, ⟨hin, hall⟩ | ⟨hnot', z, hz, hzz⟩⟩
    · refine .inl ⟨by grind, fun y hy => ?_⟩
      have hhead := hall _ List.mem_cons_self
      rcases List.mem_cons.mp hy with rfl | hy
      · exact hdirection.trans hhead (hfirst _ (by simp))
      · rcases List.mem_cons.mp hy with rfl | hy
        · exact hdirection.trans hhead (hfirst _ (by simp))
        · exact hall y (List.mem_cons_of_mem _ hy)
    · exact .inr ⟨hnot', z, by grind, hzz⟩
    · exact absurd (hdirection.le_self (hall _ List.mem_cons_self)).2 hnot
    · exact .inr ⟨hnot', y, by grind, hyy⟩

theorem isExtreme_foldl_least (items : List V) (start : V) :
    IsExtreme (fun a b => a ≤ b) (start :: items) (items.foldl Arith.least start) := by
  apply isExtreme_foldl (.inl rfl)
  intro a b
  unfold Arith.least IsExtreme
  have hle := ValueOrder.lt_iff (a := a) (b := b)
  have hself := @ValueOrder.le_self V _ _ a b
  have htotal := @ValueOrder.le_total V _ _ a b
  simp only [List.mem_cons, List.not_mem_nil, or_false, forall_eq_or_imp, forall_eq,
    exists_eq_or_imp, exists_eq_left]
  grind

theorem isExtreme_foldl_greatest (items : List V) (start : V) :
    IsExtreme (fun a b => b ≤ a) (start :: items) (items.foldl Arith.greatest start) := by
  apply isExtreme_foldl (.inr rfl)
  intro a b
  unfold Arith.greatest IsExtreme
  have hle := ValueOrder.lt_iff (a := b) (b := a)
  have hself := @ValueOrder.le_self V _ _ b a
  have htotal := @ValueOrder.le_total V _ _ a b
  simp only [List.mem_cons, List.not_mem_nil, or_false, forall_eq_or_imp, forall_eq,
    exists_eq_or_imp, exists_eq_left]
  grind

/-- Extremes of the same items in the same direction are alike. -/
theorem IsExtreme.alike (hdirection : IsDirection before) (h : IsExtreme before items a)
    (h' : IsExtreme before items' b) (hitems : ∀ x, x ∈ items ↔ x ∈ items') :
    Arith.Alike a b := by
  rcases h, h' with ⟨⟨ha, hall⟩ | ⟨hnot, x, hx, hxx⟩, ⟨hb, hall'⟩ | ⟨hnot', y, hy, hyy⟩⟩
  · exact hdirection.alike (hall b ((hitems b).mpr hb)) (hall' a ((hitems a).mp ha))
  · exact absurd (hdirection.le_self (hall y ((hitems y).mpr hy))).2 hyy
  · exact absurd (hdirection.le_self (hall' x ((hitems x).mp hx))).2 hxx
  · exact .inl ⟨hnot, hnot'⟩

end Extremes

end Multigrid
