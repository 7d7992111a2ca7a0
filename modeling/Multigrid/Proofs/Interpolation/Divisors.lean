import Multigrid.Interpolation.Direct
import Multigrid.Proofs.Scalar.Underflow

/-!
# Divisors of direct interpolation

Direct interpolation tests denominators before it divides.  A correction divides by the difference
that it has tested, so its divisor is not zero.  A factor tests the diagonal and the carried sum one
by one, and then divides by their rounded product.  The product of two values above the guard in
magnitude is no less than the square of the guard, which is far above the least binary64 value but
below half of the least binary32 one.  In binary64 no divisor is zero.  In binary32 a divisor is
zero if the exact product is at most half of the least value above zero, and not otherwise.

## Main definitions

* `Mass.correctionDivisor?`, `Mass.factorDivisor?`: what is divided by, if anything is
* `Mass.dividedFactor`: the factor of the weights in terms of them
* `Direct.RowSums`, `Direct.rowSums`: what the factors of a row are computed from
* `Direct.RowSums.divisors`: the divisors of a row

## Main results

* `Direct.factors_eq_dividedFactor`: all divisions of a row
* `Mass.nonzero_of_factorDivisor?`: when a product underflows
* `Direct.divisors_nonzero`: divisors in both precisions
-/

namespace Multigrid

open Float.Model.UnpackedFloat (Sign)

variable {V W : Type} {n : Nat}

/-! ## Guarded divisions -/

namespace Mass

variable [Arith V] (mass : Mass V) (diagonal : V)

/-- What the correction divides by, if it divides. -/
def correctionDivisor? : Option V :=
  if divisionGuard < Arith.magnitude (mass.carried - mass.dropped) then
    some (mass.carried - mass.dropped)
  else none

/-- What the factor divides by, if it divides. -/
def factorDivisor? : Option V :=
  if divisionGuard < Arith.magnitude diagonal ∧ divisionGuard < Arith.magnitude mass.carried then
    some (diagonal * mass.carried)
  else none

theorem correction_eq : mass.correction = mass.correctionDivisor?.elim 1 (mass.carried / ·) := by
  unfold correction correctionDivisor?
  split_ifs <;> rfl

/-- The factor of the weights, where each of both divisions is made by its divisor, if there is one.
-/
def dividedFactor : V :=
  (mass.factorDivisor? diagonal).elim 0 fun x =>
    (-mass.correctionDivisor?.elim 1 (mass.carried / ·)) * mass.total / x

theorem factor_eq : mass.factor diagonal = mass.dividedFactor diagonal := by
  rw [dividedFactor, ← correction_eq]
  unfold factor factorDivisor?
  split_ifs <;> rfl

end Mass

/-- A value that exceeds one above zero in magnitude is not zero. -/
theorem nonzero_of_lt_magnitude [Arith V] [ValueOrder V] {x y : V} (hx : 0 < x)
    (h : x < Arith.magnitude y) : y < 0 ∨ 0 < y := by
  unfold Arith.magnitude at h
  split_ifs at h with hneg
  · exact .inl hneg
  · exact .inr (ValueOrder.lt_of_lt_of_le hx (ValueOrder.le_of_lt h))

namespace Mass

open Words

variable [Arith V] [ValueOrder V] {mass : Mass V} {diagonal x : V}
  (hguard : 0 < (divisionGuard : V))

include hguard

theorem nonzero_of_correctionDivisor? (h : mass.correctionDivisor? = some x) : x < 0 ∨ 0 < x := by
  unfold correctionDivisor? at h
  split_ifs at h with htest
  cases h
  exact nonzero_of_lt_magnitude hguard htest

/-- A divisor that is a product is zero only if the product underflows. -/
theorem nonzero_of_factorDivisor? [Words V] (h : mass.factorDivisor? diagonal = some x) :
    (x < 0 ∨ 0 < x) ↔ (isFinite diagonal → isFinite mass.carried →
      2 ^ ((format V).minExponent - 1) < |number diagonal * number mass.carried|) := by
  unfold factorDivisor? at h
  split_ifs at h with htest
  cases h
  exact mul_nonzero_iff (nonzero_of_lt_magnitude hguard htest.1)
    (nonzero_of_lt_magnitude hguard htest.2)

/-- With a guard whose square does not underflow, no product does. -/
theorem nonzero_of_factorDivisor?_of_lt_sq [Words V] (hfinite : isFinite (divisionGuard : V))
    (hsq : 2 ^ ((format V).minExponent - 1) < number (divisionGuard : V) ^ 2)
    (hnonneg : 0 ≤ number (divisionGuard : V)) (h : mass.factorDivisor? diagonal = some x) :
    x < 0 ∨ 0 < x := by
  rw [nonzero_of_factorDivisor? hguard h]
  intro hdiagonal hcarried
  -- both factors are above the guard, so their exact product is above its square
  unfold factorDivisor? at h
  split_ifs at h with htest
  refine hsq.trans_le ?_
  rw [pow_two, abs_mul]
  exact mul_le_mul (number_le_abs_number hfinite hdiagonal htest.1)
    (number_le_abs_number hfinite hcarried htest.2) hnonneg (abs_nonneg _)

end Mass

/-! ## Rows -/

namespace Direct

/-- What the factors of a row are computed from. -/
structure RowSums (V : Type) where
  /-- The sums of the negative entries. -/
  negative : Mass V
  /-- The sums of the other entries. -/
  positive : Mass V
  /-- The diagonal, with what is added to it. -/
  diagonal : V

/-- The divisors of a row. -/
def RowSums.divisors [Arith V] (sums : RowSums V) : List V :=
  [sums.negative.correctionDivisor?, sums.positive.correctionDivisor?,
    sums.negative.factorDivisor? sums.diagonal,
    sums.positive.factorDivisor? sums.diagonal].reduceOption

section Sums

variable [Arith V] [Arith W] [Storage V V W] (G : StrengthGraph V n) (labels : Vector Label n)
  (band : Band V) (i : Fin n)

/-- What the factors of row `i` are computed from. -/
def rowSums : RowSums V where
  negative := mass G labels i (· < 0) (band.lower < ·)
  positive := mass G labels i (0 ≤ ·) (· < band.upper)
  diagonal :=
    let stored := (G.operator.lastDiagonal? i).getD 0
    let positive := mass G labels i (0 ≤ ·) (· < band.upper)
    if 0 < positive.total ∧ Arith.magnitude positive.carried < divisionGuard then
      stored + positive.total
    else stored

/-- The factors of a row divide by the divisors of the row and by nothing else. -/
theorem factors_eq_dividedFactor :
    let sums := rowSums G labels band i
    factors G labels band i =
      (sums.negative.dividedFactor sums.diagonal, sums.positive.dividedFactor sums.diagonal) := by
  intro sums
  rw [← Mass.factor_eq, ← Mass.factor_eq]
  rfl

end Sums

/-! ## The guard -/

theorem divisionGuard_float_pos : (0 : Float) < divisionGuard := by
  decide +kernel

theorem divisionGuard_float32_pos : (0 : Float32) < divisionGuard := by
  decide +kernel

theorem unpacked_divisionGuard_float : Words.unpacked (divisionGuard : Float) =
    .finite .positive 7307508186654515 (-159) (by decide) := rfl

theorem two_zpow_le_number_divisionGuard_float :
    2 ^ (-107 : ℤ) ≤ Words.number (divisionGuard : Float) := by
  rw [Words.number, unpacked_divisionGuard_float, exactValue,
    show (-107 : ℤ) = 52 + -159 from rfl, zpow_add₀ (by norm_num)]
  gcongr
  norm_num [Sign.apply]

/-- The square of the guard is far above the least binary64 value. -/
theorem lt_sq_number_divisionGuard_float :
    2 ^ ((Words.format Float).minExponent - 1) < Words.number (divisionGuard : Float) ^ 2 := by
  have hexponent : (Words.format Float).minExponent - 1 = -1075 := rfl
  calc (2 : ℚ) ^ ((Words.format Float).minExponent - 1)
      = 2 ^ (-1075 : ℤ) := by rw [hexponent]
    _ < 2 ^ (-107 + -107 : ℤ) := zpow_lt_zpow_right₀ (by norm_num) (by norm_num)
    _ = (2 ^ (-107 : ℤ)) ^ 2 := by rw [zpow_add₀ (by norm_num), pow_two]
    _ ≤ Words.number (divisionGuard : Float) ^ 2 := by
        gcongr
        exact two_zpow_le_number_divisionGuard_float

/-! ## Both precisions -/

/-- The divisors of the factors of a row.  In binary64 none is zero.  In binary32 no divisor of a
correction is, and the divisor of a factor is zero if and only if the diagonal and the carried sum
are finite and their product is at most half of the least value above zero. -/
theorem divisors_nonzero (labels : Vector Label n) (i : Fin n) :
    (∀ (G : StrengthGraph Float n) (band : Band Float),
      let sums := rowSums G labels band i
      factors G labels band i =
        (sums.negative.dividedFactor sums.diagonal, sums.positive.dividedFactor sums.diagonal) ∧
      ∀ x ∈ sums.divisors, x < 0 ∨ 0 < x) ∧
    ∀ (G : StrengthGraph Float32 n) (band : Band Float32),
      let sums := rowSums G labels band i
      factors G labels band i =
        (sums.negative.dividedFactor sums.diagonal, sums.positive.dividedFactor sums.diagonal) ∧
      ∀ mass ∈ [sums.negative, sums.positive],
        (∀ x, mass.correctionDivisor? = some x → x < 0 ∨ 0 < x) ∧
        ∀ x, mass.factorDivisor? sums.diagonal = some x → ((x < 0 ∨ 0 < x) ↔
          (Words.isFinite sums.diagonal → Words.isFinite mass.carried →
            2 ^ (-150 : ℤ) < |Words.number sums.diagonal * Words.number mass.carried|)) := by
  have hnonneg : 0 ≤ Words.number (divisionGuard : Float) :=
    (zpow_nonneg (by norm_num) _).trans two_zpow_le_number_divisionGuard_float
  constructor
  · intro G band sums
    refine ⟨factors_eq_dividedFactor G labels band i, fun x hx => ?_⟩
    have hfactor {mass : Mass Float} {diagonal : Float}
        (h : mass.factorDivisor? diagonal = some x) : x < 0 ∨ 0 < x :=
      Mass.nonzero_of_factorDivisor?_of_lt_sq divisionGuard_float_pos rfl
        lt_sq_number_divisionGuard_float hnonneg h
    have hcorrection {mass : Mass Float} (h : mass.correctionDivisor? = some x) : x < 0 ∨ 0 < x :=
      Mass.nonzero_of_correctionDivisor? divisionGuard_float_pos h
    rw [RowSums.divisors, List.reduceOption_mem_iff] at hx
    simp only [List.mem_cons, List.not_mem_nil, or_false] at hx
    rcases hx with hx | hx | hx | hx
    · exact hcorrection hx.symm
    · exact hcorrection hx.symm
    · exact hfactor hx.symm
    · exact hfactor hx.symm
  · intro G band sums
    refine ⟨factors_eq_dividedFactor G labels band i, fun mass _ => ⟨fun x h => ?_, fun x h => ?_⟩⟩
    · exact Mass.nonzero_of_correctionDivisor? divisionGuard_float32_pos h
    · exact Mass.nonzero_of_factorDivisor? divisionGuard_float32_pos h

/-- Two points, the first one with a diagonal and a strong entry in the column of the second. -/
def chainedPair [Arith V] (diagonal coupling : V) : StrengthGraph V 2 :=
  .ofRows fun i =>
    if i = Fin.last 1 then [⟨⟨i, 1⟩, false⟩]
    else [⟨⟨i, diagonal⟩, false⟩, ⟨⟨Fin.last 1, coupling⟩, true⟩]

/-- The first point of a pair is interpolated from the second one. -/
def chainedLabels : Vector Label 2 := #v[.fine, .coarse]

/-- What the factors of point `i` of a pair are computed from. -/
def chainedSums [Arith V] [Arith W] [Storage V V W] (diagonal coupling : V) (i : Fin 2) :
    RowSums V :=
  let G := chainedPair diagonal coupling
  rowSums G chainedLabels (band G chainedLabels i) i

theorem chainedPair_divisors_nonzero :
    (2 ≤ (chainedSums (2 : Float) (-1) 0).divisors.length ∧
      ∀ x ∈ (chainedSums (2 : Float) (-1) 0).divisors, x < 0 ∨ 0 < x) ∧
    ∃ x, (chainedSums (2 : Float32) (-1) 0).negative.correctionDivisor? = some x ∧
      (x < 0 ∨ 0 < x) := by
  obtain ⟨hfloat, hfloat32⟩ := divisors_nonzero chainedLabels 0
  have hsome : (chainedSums (2 : Float32) (-1) 0).negative.correctionDivisor?.isSome := by
    decide +kernel
  obtain ⟨x, hx⟩ := Option.isSome_iff_exists.mp hsome
  refine ⟨⟨by decide +kernel, (hfloat (chainedPair 2 (-1)) _).2⟩, x, hx, ?_⟩
  exact ((hfloat32 (chainedPair 2 (-1)) _).2 _ List.mem_cons_self).1 x hx

/-- The values are `2 ^ (-80)` and `-2 ^ (-86)`.  Both exceed the guard, while their product is
rounded to zero. -/
theorem chainedPair_zero_divisor :
    let G := chainedPair (Float32.ofBits 0x17800000) (Float32.ofBits 0x94800000)
    let band := band G chainedLabels 0
    (∃ x ∈ (rowSums G chainedLabels band 0).divisors, x ≤ x ∧ ¬ (x < 0 ∨ 0 < x)) ∧
      ∃ e ∈ row G chainedLabels band 0, ¬ Words.isFinite e.value := by
  decide +kernel

end Direct

end Multigrid
