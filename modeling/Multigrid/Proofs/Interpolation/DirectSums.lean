import Multigrid.Proofs.Interpolation.Counting
import Multigrid.Proofs.Interpolation.DirectBalance

/-!
# Row sums of direct interpolation

Entries inside of the band are dropped, and the weights of the others make up for them.  An entry is
kept by a test against both ends of the band, while what is dropped is summed up for each sign with
a test against one end.  The two agree because the band reaches from below zero to above: a negative
entry is always below the upper end, a positive one always above the lower end, and a zero adds
nothing to either sum.  So the kept entries of one sign sum up to what is carried less what is
dropped, and times the factor of the sign this is the part `-t / d` for the sum `t` of all entries
of that sign and the diagonal entry `d`, unless the sign is not carried at all.

## Main definitions

* `Mass.carriedTotal`: the sum of all entries of a sign that is carried
* `Direct.coefficientMass`: the sums of one sign, taken over coefficients
* `Direct.lumpedDiagonal`: the diagonal coefficient, with a positive part that is not carried

## Main results

* `Direct.mass_eq_coefficientMass`: sums over entries and sums over coefficients
* `Mass.factor_mul_sub`: what the weights of one sign sum up to
* `Direct.sum_row_eq`: the row sums of the prolongator
-/

namespace Multigrid

/-- The sum of all entries of a sign, if a strong coarse one carries it. -/
def Mass.carriedTotal (mass : Mass Rat) : Rat := if mass.carried = 0 then 0 else mass.total

/-- The weights of one sign sum up to its part of the row, unless nothing carries it. -/
theorem Mass.factor_mul_sub {mass : Mass Rat} {diagonal : Rat}
    (hcarried : mass.carried = 0 ∨ divisionGuard < |mass.carried|)
    (hkept : mass.carried ≠ 0 → divisionGuard < |mass.carried - mass.dropped|)
    (hdiagonal : divisionGuard < |diagonal|) :
    mass.factor diagonal * (mass.carried - mass.dropped) =
      -mass.carriedTotal / diagonal := by
  rw [factor, magnitude_eq_abs, magnitude_eq_abs, carriedTotal]
  by_cases hzero : mass.carried = 0
  · have hnot : ¬ divisionGuard < |mass.carried| := by
      rw [hzero, abs_zero]
      exact divisionGuard_pos.not_gt
    rw [if_neg fun h => hnot h.2, if_pos hzero, zero_mul, neg_zero, zero_div]
  · have hguard := hcarried.resolve_left hzero
    have hd := abs_pos.mp (divisionGuard_pos.trans hdiagonal)
    have hk := abs_pos.mp (divisionGuard_pos.trans (hkept hzero))
    rw [if_pos ⟨hdiagonal, hguard⟩, if_neg hzero, correction, magnitude_eq_abs,
      if_pos (hkept hzero)]
    field_simp

namespace Direct

variable {R : Type} {n : Nat}

section Definitions

variable (G : StrengthGraph Rat n) (labels : Vector Label n) (i : Fin n)

/-- The sums over the coefficients of row `i` that have one sign: off the diagonal, in the columns
of strong coarse points, and in those on the inner side of the band. -/
def coefficientMass (hasSign isInner : Rat → Bool) : Mass Rat where
  total := ∑ j with j ≠ i ∧ hasSign (G.operator.coefficient i j) = true,
    G.operator.coefficient i j
  carried := ∑ j with (G.IsStrong i j ∧ labels.get j = .coarse) ∧
    hasSign (G.operator.coefficient i j) = true, G.operator.coefficient i j
  dropped := ∑ j with (G.IsStrong i j ∧ labels.get j = .coarse) ∧
    hasSign (G.operator.coefficient i j) = true ∧ isInner (G.operator.coefficient i j) = true,
      G.operator.coefficient i j

/-- The sums over negative coefficients of row `i`. -/
def negativeCoefficients : Mass Rat :=
  coefficientMass G labels i (· < 0) ((band G labels i).lower < ·)

/-- The sums over the other coefficients of row `i`. -/
def positiveCoefficients : Mass Rat :=
  coefficientMass G labels i (0 ≤ ·) (· < (band G labels i).upper)

/-- The diagonal coefficient of row `i`, with a positive part added that has no strong coarse
coefficient. -/
def lumpedDiagonal : Rat :=
  let positive := positiveCoefficients G labels i
  if 0 < positive.total ∧ positive.carried = 0 then G.operator.coefficient i i + positive.total
  else G.operator.coefficient i i

end Definitions

variable {G : StrengthGraph Rat n} {labels : Vector Label n} {i : Fin n}

/-! ## The band -/

theorem lower_band_nonpos : (band G labels i).lower ≤ 0 := by
  rw [band]
  split_ifs
  · exact le_rfl
  · have hleast := (isLeast_foldl_least 0 ((strongCoarse G labels i).map (·.value))).2
      List.mem_cons_self
    exact mul_nonpos_of_nonpos_of_nonneg hleast (by norm_num : (0 : Rat) ≤ 0.2)

theorem upper_band_nonneg : 0 ≤ (band G labels i).upper := by
  rw [band]
  split_ifs
  · exact le_rfl
  · have hgreatest := (isGreatest_foldl_greatest 0 ((strongCoarse G labels i).map (·.value))).2
      List.mem_cons_self
    exact mul_nonneg hgreatest (by norm_num : (0 : Rat) ≤ 0.2)

/-! ## Sums over coefficients -/

section Sums

variable (hdistinct : G.operator.HasDistinctColumns)

include hdistinct

theorem sum_filter_row (i : Fin n) (test : Bool → Fin n → Rat → Bool) :
    (((G.row i).filter fun c => test c.strong c.column c.value).map (·.value)).sum =
      ∑ j with test (decide (G.IsStrong i j)) j (G.operator.coefficient i j) = true,
        G.operator.coefficient i j := by
  rw [sum_map_filter, Finset.sum_filter]
  exact StrengthGraph.sum_map_row hdistinct i
    (f := fun strong j x => if test strong j x then x else 0) fun _ _ => ite_self 0

variable (hi : labels.get i ≠ .coarse)

include hi

/-- In a row that stores no column twice, sums over entries are sums over coefficients. -/
theorem mass_eq_coefficientMass (hasSign isInner : Rat → Bool) :
    mass G labels i hasSign isInner = coefficientMass G labels i hasSign isInner := by
  have hne {j : Fin n} (hj : labels.get j = .coarse) : j ≠ i := fun h => hi (h ▸ hj)
  simp only [mass, coefficientMass, roundedSum_eq, List.filter_filter, Mass.mk.injEq]
  refine ⟨?_, ?_, ?_⟩
  · rw [sum_filter_row hdistinct i fun _ j x => decide (j ≠ i) && hasSign x]
    simp
  · rw [sum_filter_row hdistinct i fun strong j x =>
      (strong && decide (labels.get j = .coarse)) && (decide (j ≠ i) && hasSign x)]
    congr 1
    ext j
    simp
    grind
  · rw [sum_filter_row hdistinct i fun strong j x => isInner x &&
      ((strong && decide (labels.get j = .coarse)) && (decide (j ≠ i) && hasSign x))]
    congr 1
    ext j
    simp
    grind

theorem modifiedDiagonal_eq_lumpedDiagonal
    (hcarried : (positiveCoefficients G labels i).carried = 0 ∨
      divisionGuard < |(positiveCoefficients G labels i).carried|) :
    modifiedDiagonal G labels i = lumpedDiagonal G labels i := by
  have hmass : positiveMass G labels i = positiveCoefficients G labels i :=
    mass_eq_coefficientMass hdistinct hi _ _
  have hdiagonal : (G.operator.lastDiagonal? i).getD 0 = G.operator.coefficient i i :=
    getLast?_filter_eq (hdistinct i) i
  have hguard : |(positiveCoefficients G labels i).carried| < divisionGuard ↔
      (positiveCoefficients G labels i).carried = 0 := by
    refine ⟨fun h => hcarried.resolve_right h.not_gt, fun h => ?_⟩
    rw [h, abs_zero]
    exact divisionGuard_pos
  simp only [modifiedDiagonal, lumpedDiagonal, hmass, hdiagonal, magnitude_eq_abs, hguard]

/-- The kept entries of one sign sum up to what is carried less what is dropped. -/
theorem sum_weights_eq (negative positive : Rat) :
    (((G.row i).filter (isKept labels (band G labels i) i)).map fun c =>
        (if c.value < 0 then negative else positive) * c.value).sum =
      negative * ((negativeCoefficients G labels i).carried -
          (negativeCoefficients G labels i).dropped) +
        positive * ((positiveCoefficients G labels i).carried -
          (positiveCoefficients G labels i).dropped) := by
  have hlower : (band G labels i).lower ≤ 0 := lower_band_nonpos
  have hupper : 0 ≤ (band G labels i).upper := upper_band_nonneg
  have hsum := StrengthGraph.sum_map_row hdistinct i
    (f := fun strong j x => if strong && decide (labels.get j = .coarse) &&
      !(band G labels i).isInside x then (if x < 0 then negative else positive) * x else 0)
    fun _ _ => by simp
  have hkept : (G.row i).filter (isKept labels (band G labels i) i) = (G.row i).filter fun c =>
      c.strong && decide (labels.get c.column = .coarse) &&
        !(band G labels i).isInside c.value := by
    apply List.filter_congr
    intro c _
    simp [isKept, hi]
  rw [hkept, sum_map_filter, hsum]
  simp only [negativeCoefficients, positiveCoefficients, coefficientMass, Finset.sum_filter,
    ← Finset.sum_sub_distrib, Finset.mul_sum, ← Finset.sum_add_distrib]
  apply Finset.sum_congr rfl
  intro j _
  by_cases hj : G.IsStrong i j ∧ labels.get j = .coarse
  · -- the sign of the coefficient decides which end of the band matters
    rcases lt_trichotomy (G.operator.coefficient i j) 0 with hneg | hzero | hpos
    · have hinner : G.operator.coefficient i j < (band G labels i).upper := hneg.trans_le hupper
      by_cases hdropped : (band G labels i).lower < G.operator.coefficient i j
      · simp [hj, hneg, hneg.not_ge, hdropped, hinner, Band.isInside]
      · simp [hj, hneg, hneg.not_ge, hdropped, Band.isInside]
    · simp [hzero]
    · have hinner : (band G labels i).lower < G.operator.coefficient i j := hlower.trans_lt hpos
      by_cases hdropped : G.operator.coefficient i j < (band G labels i).upper
      · simp [hj, hpos.le, hpos.not_gt, hdropped, hinner, Band.isInside]
      · simp [hj, hpos.le, hpos.not_gt, hdropped, Band.isInside]
  · have hnot : (decide (G.IsStrong i j) && decide (labels.get j = .coarse)) = false := by
      simpa using hj
    simp [hj, hnot]

theorem sum_valuesOf_rows_eq : (valuesOf (rows G labels i)).sum =
    (negativeMass G labels i).factor (modifiedDiagonal G labels i) *
        ((negativeMass G labels i).carried - (negativeMass G labels i).dropped) +
      (positiveMass G labels i).factor (modifiedDiagonal G labels i) *
        ((positiveMass G labels i).carried - (positiveMass G labels i).dropped) := by
  have hnegative : negativeMass G labels i = negativeCoefficients G labels i :=
    mass_eq_coefficientMass hdistinct hi _ _
  have hpositive : positiveMass G labels i = positiveCoefficients G labels i :=
    mass_eq_coefficientMass hdistinct hi _ _
  rw [hnegative, hpositive, ← sum_weights_eq hdistinct hi, rows, row, if_neg hi, weights,
    factors_eq, hnegative, hpositive, valuesOf, List.map_map]
  rfl

end Sums

variable (labels) in
/-- All coefficients are on the diagonal, negative or not. -/
theorem sum_coefficient_eq : ∑ j, G.operator.coefficient i j =
    (negativeCoefficients G labels i).total + (positiveCoefficients G labels i).total +
      G.operator.coefficient i i := by
  have hsplit (j : Fin n) : G.operator.coefficient i j =
      (if j ≠ i ∧ G.operator.coefficient i j < 0 then G.operator.coefficient i j else 0) +
        (if j ≠ i ∧ 0 ≤ G.operator.coefficient i j then G.operator.coefficient i j else 0) +
        (if j = i then G.operator.coefficient i i else 0) := by
    rcases eq_or_ne j i with rfl | hj
    · simp
    · rcases lt_or_ge (G.operator.coefficient i j) 0 with hneg | hpos
      · simp [hj, hneg, hneg.not_ge]
      · simp [hj, hpos, hpos.not_gt]
  rw [Finset.sum_congr rfl fun j _ => hsplit j]
  simp [negativeCoefficients, positiveCoefficients, coefficientMass, Finset.sum_add_distrib,
    Finset.sum_filter]

theorem total_positiveCoefficients_nonneg : 0 ≤ (positiveCoefficients G labels i).total := by
  refine Finset.sum_nonneg (N := Rat) fun j hj => ?_
  exact of_decide_eq_true (Finset.mem_filter.mp hj).2.2

/-- The row of a point that is not coarse, for an operator that stores no column twice, in exact
arithmetic and with no denominator up to the guard.  Its weights sum up to what is carried of the
two signs, divided by the diagonal and negated, and to one if the row sum is zero and there are
negative strong coarse entries.  Entries on the diagonal may be marked as strong. -/
theorem sum_row_eq (hdistinct : G.operator.HasDistinctColumns) (hi : labels.get i ≠ .coarse)
    (hnegative : (negativeCoefficients G labels i).carried = 0 ∨
      divisionGuard < |(negativeCoefficients G labels i).carried|)
    (hpositive : (positiveCoefficients G labels i).carried = 0 ∨
      divisionGuard < |(positiveCoefficients G labels i).carried|)
    (hnegativeKept : (negativeCoefficients G labels i).carried ≠ 0 → divisionGuard <
      |(negativeCoefficients G labels i).carried - (negativeCoefficients G labels i).dropped|)
    (hpositiveKept : (positiveCoefficients G labels i).carried ≠ 0 → divisionGuard <
      |(positiveCoefficients G labels i).carried - (positiveCoefficients G labels i).dropped|)
    (hdiagonal : divisionGuard < |lumpedDiagonal G labels i|) :
    ∃ buffer : RowBuffer Rat n,
      prolongator G labels n = (.ok buffer : Except (Fault R) (RowBuffer Rat n)) ∧
      (valuesOf ((coarseColumns labels buffer).row i)).sum =
        -((negativeCoefficients G labels i).carriedTotal +
          (positiveCoefficients G labels i).carriedTotal) / lumpedDiagonal G labels i ∧
      (∑ j, G.operator.coefficient i j = 0 → (negativeCoefficients G labels i).carried ≠ 0 →
        (valuesOf ((coarseColumns labels buffer).row i)).sum = 1) := by
  have hrow : valuesOf ((coarseColumns labels (.ofRows (rows G labels) n)).row i) =
      valuesOf (rows G labels i) := by
    have hvalues := congrArg (List.map Prod.snd)
      (map_row_coarseColumns_rows G labels i)
    rwa [List.map_map, List.map_map] at hvalues
  have hsum : (valuesOf (rows G labels i)).sum =
      -((negativeCoefficients G labels i).carriedTotal +
        (positiveCoefficients G labels i).carriedTotal) / lumpedDiagonal G labels i := by
    rw [sum_valuesOf_rows_eq hdistinct hi, negativeMass, positiveMass,
      mass_eq_coefficientMass hdistinct hi, mass_eq_coefficientMass hdistinct hi,
      modifiedDiagonal_eq_lumpedDiagonal hdistinct hi hpositive]
    exact (congrArg₂ (· + ·) (Mass.factor_mul_sub hnegative hnegativeKept hdiagonal)
      (Mass.factor_mul_sub hpositive hpositiveKept hdiagonal)).trans (by ring)
  refine ⟨_, prolongator_eq_ok (countsKept_exact G labels), hrow ▸ hsum, fun hzero hcarried => ?_⟩
  have hd := abs_pos.mp (divisionGuard_pos.trans hdiagonal)
  rw [hrow, hsum, div_eq_one_iff_eq hd, Mass.carriedTotal, Mass.carriedTotal, if_neg hcarried,
    lumpedDiagonal]
  rw [sum_coefficient_eq labels] at hzero
  have htotal : 0 ≤ (positiveCoefficients G labels i).total := total_positiveCoefficients_nonneg
  by_cases hcarriedPos : (positiveCoefficients G labels i).carried = 0
  · -- what is not carried has been added to the diagonal
    rw [if_pos hcarriedPos]
    split_ifs with hlumped
    · linarith
    · have hnone : ¬ 0 < (positiveCoefficients G labels i).total := fun h =>
        hlumped ⟨h, hcarriedPos⟩
      linarith
  · rw [if_neg hcarriedPos, if_neg fun h => hcarriedPos h.2]
    linarith

/-- A point between two coarse ones on each side, with entries of both signs inside of the band. -/
def striped : StrengthGraph Rat 5 :=
  .ofRows fun i => if i.val = 0 then
    ((List.finRange 5).zip [1, -4, -1 / 2, 3, 1 / 2]).map fun (j, x) => ⟨⟨j, x⟩, i ≠ j⟩
    else [⟨⟨i, 1⟩, false⟩]

/-- The first point of the striped operator and its coarse neighbours. -/
def stripedLabels : Vector Label 5 := ⟨#[.fine, .coarse, .coarse, .coarse, .coarse], rfl⟩

/-- The weights of the striped row sum up to one. -/
theorem sum_row_striped :
    striped.operator.HasDistinctColumns ∧ stripedLabels.get 0 ≠ .coarse ∧
    divisionGuard < |(negativeCoefficients striped stripedLabels 0).carried| ∧
    divisionGuard < |(positiveCoefficients striped stripedLabels 0).carried| ∧
    divisionGuard < |(negativeCoefficients striped stripedLabels 0).carried -
      (negativeCoefficients striped stripedLabels 0).dropped| ∧
    divisionGuard < |(positiveCoefficients striped stripedLabels 0).carried -
      (positiveCoefficients striped stripedLabels 0).dropped| ∧
    divisionGuard < |lumpedDiagonal striped stripedLabels 0| ∧
    ∃ buffer : RowBuffer Rat 5,
      prolongator striped stripedLabels 5 = (.ok buffer : Except (Fault Unit) (RowBuffer Rat 5)) ∧
      (valuesOf ((coarseColumns stripedLabels buffer).row 0)).sum = 1 := by
  have hdistinct : striped.operator.HasDistinctColumns := by decide +kernel
  have hi : stripedLabels.get 0 ≠ .coarse := by decide
  have hnegative : divisionGuard < |(negativeCoefficients striped stripedLabels 0).carried| := by
    decide +kernel
  have hpositive : divisionGuard < |(positiveCoefficients striped stripedLabels 0).carried| := by
    decide +kernel
  have hnegativeKept : divisionGuard < |(negativeCoefficients striped stripedLabels 0).carried -
      (negativeCoefficients striped stripedLabels 0).dropped| := by decide +kernel
  have hpositiveKept : divisionGuard < |(positiveCoefficients striped stripedLabels 0).carried -
      (positiveCoefficients striped stripedLabels 0).dropped| := by decide +kernel
  have hdiagonal : divisionGuard < |lumpedDiagonal striped stripedLabels 0| := by decide +kernel
  have hzero : ∑ j, striped.operator.coefficient 0 j = 0 := by decide +kernel
  obtain ⟨buffer, hbuffer, -, hsum⟩ := sum_row_eq hdistinct hi (.inr hnegative) (.inr hpositive)
    (fun _ => hnegativeKept) (fun _ => hpositiveKept) hdiagonal
  exact ⟨hdistinct, hi, hnegative, hpositive, hnegativeKept, hpositiveKept, hdiagonal, buffer,
    hbuffer, hsum hzero (abs_pos.mp (divisionGuard_pos.trans hnegative))⟩

end Direct

end Multigrid
