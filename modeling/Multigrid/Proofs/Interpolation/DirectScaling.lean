import Multigrid.Proofs.Interpolation.DirectBalance
import Multigrid.Proofs.Interpolation.UnitRows
import Multigrid.Proofs.Strength.RowScaling

/-!
# Direct interpolation of scaled rows

Direct interpolation builds a row from the entries of that row alone.  If they are multiplied by a
factor above zero, so are the band, the sums and the diagonal, and the entries that are kept are the
same ones.  The factor of the weights is a sum over the product of the diagonal and another sum.  It
is divided by the factor of the row, and the weights do not change.

The guard is a fixed number, so the tests against it may come out differently for a scaled row.
That they do not is all that has to be asked for.

## Main definitions

* `Direct.guardTests`: the outcomes of the tests against the guard

## Main results

* `Direct.prolongator_rowScaled`: the prolongator
-/

namespace Multigrid

variable {n : Nat}

theorem strongCoarse_rowScaled (d : Fin n → Rat) (G : StrengthGraph Rat n)
    (labels : Vector Label n) (i : Fin n) :
    strongCoarse (G.rowScaled d) labels i =
      (strongCoarse G labels i).map (Connection.scaled (d i)) := by
  rw [strongCoarse, StrengthGraph.strongRow_rowScaled, List.filter_map]
  rfl

/-! ## Sums -/

namespace Mass

variable {s : Rat} {mass : Mass Rat}

/-- The sums of a scaled row. -/
def scaled (s : Rat) (mass : Mass Rat) : Mass Rat :=
  ⟨s * mass.total, s * mass.carried, s * mass.dropped⟩

theorem correction_scaled (hs : s ≠ 0) (hkept : exceedsGuard (s * mass.carried - s * mass.dropped) =
    exceedsGuard (mass.carried - mass.dropped)) :
    (mass.scaled s).correction = mass.correction := by
  have hquotient : s * mass.carried / (s * mass.carried - s * mass.dropped) =
      mass.carried / (mass.carried - mass.dropped) := by
    rw [← mul_sub, mul_div_mul_left _ _ hs]
  exact if_congr (guard_lt_magnitude_congr hkept) hquotient rfl

/-- The factor of the weights is divided by the factor of the row. -/
theorem factor_scaled (hs : s ≠ 0) {diagonal : Rat}
    (hkept : exceedsGuard (s * mass.carried - s * mass.dropped) =
      exceedsGuard (mass.carried - mass.dropped))
    (hdiagonal : exceedsGuard (s * diagonal) = exceedsGuard diagonal)
    (hcarried : exceedsGuard (s * mass.carried) = exceedsGuard mass.carried) :
    (mass.scaled s).factor (s * diagonal) = mass.factor diagonal / s := by
  have hquotient : -mass.correction * (s * mass.total) / (s * diagonal * (s * mass.carried)) =
      -mass.correction * mass.total / (diagonal * mass.carried) / s := by
    rw [mul_left_comm, mul_assoc, mul_div_mul_left _ _ hs, mul_left_comm diagonal, div_div,
      mul_comm s]
  have hboth := and_congr (guard_lt_magnitude_congr hdiagonal) (guard_lt_magnitude_congr hcarried)
  unfold factor
  rw [correction_scaled hs hkept]
  refine (if_congr hboth hquotient rfl).trans ?_
  split_ifs
  · rfl
  · exact (zero_div s).symm

end Mass

/-- The band of a scaled row. -/
def Band.scaled (s : Rat) (band : Band Rat) : Band Rat := ⟨s * band.lower, s * band.upper⟩

theorem Band.isInside_scaled {s : Rat} (hs : 0 < s) (band : Band Rat) (x : Rat) :
    (band.scaled s).isInside (s * x) = band.isInside x :=
  decide_eq_decide.mpr (and_congr (mul_lt_mul_iff_right₀ hs) (mul_lt_mul_iff_right₀ hs))

namespace Direct

variable {G : StrengthGraph Rat n} {labels : Vector Label n} {d : Fin n → Rat} {i : Fin n}

variable (G labels i) in
/-- The outcomes of the tests against the guard in row `i`.  The positive part is tested twice, as
it is moved to the diagonal if it is below the guard, and divided by if it is above. -/
def guardTests : List Bool :=
  decide (|(positiveMass G labels i).carried| < divisionGuard) ::
    (compared G labels i).map exceedsGuard

section Rows

theorem roundedSum_map_scaled (s : Rat) (items : List (Connection Rat n)) :
    roundedSum ((items.map (Connection.scaled s)).map (·.value)) =
      s * roundedSum (items.map (·.value)) := by
  rw [roundedSum_eq, roundedSum_eq, List.map_map]
  exact List.sum_map_mul_left items (·.value) s

/-- The sums of a scaled row, for tests that come out the same. -/
theorem mass_rowScaled {hasSign isInner isInner' : Rat → Bool}
    (hsign : ∀ x, hasSign (d i * x) = hasSign x) (hinner : ∀ x, isInner' (d i * x) = isInner x) :
    mass (G.rowScaled d) labels i hasSign isInner' =
      (mass G labels i hasSign isInner).scaled (d i) := by
  have hall : (fun c : Connection Rat n => decide (c.column ≠ i) && hasSign c.value) ∘
      Connection.scaled (d i) = fun c => decide (c.column ≠ i) && hasSign c.value :=
    funext fun c => congrArg (decide (c.column ≠ i) && ·) (hsign c.value)
  have hdropped : (fun c : Connection Rat n => isInner' c.value) ∘ Connection.scaled (d i) =
      fun c => isInner c.value :=
    funext fun c => hinner c.value
  have hcarried : (fun c : Connection Rat n => c.strong && decide (labels.get c.column = .coarse)) ∘
      Connection.scaled (d i) = fun c => c.strong && decide (labels.get c.column = .coarse) := rfl
  unfold mass
  simp only [StrengthGraph.row_rowScaled, List.filter_map, hall, hcarried, hdropped,
    roundedSum_map_scaled]
  rfl

variable (hd : ∀ i, 0 < d i)

include hd

theorem band_rowScaled : band (G.rowScaled d) labels i = (band G labels i).scaled (d i) := by
  have hvalues : (strongCoarse (G.rowScaled d) labels i).map (·.value) =
      ((strongCoarse G labels i).map (·.value)).map (d i * ·) := by
    rw [strongCoarse_rowScaled, List.map_map, List.map_map]
    rfl
  unfold band
  rw [hvalues]
  split_ifs
  · unfold Band.scaled
    rw [mul_zero]
  · dsimp only
    rw [foldl_least_map_mul (hd i), foldl_greatest_map_mul (hd i)]
    exact congrArg₂ Band.mk (mul_assoc _ _ _) (mul_assoc _ _ _)

theorem negativeMass_rowScaled :
    negativeMass (G.rowScaled d) labels i = (negativeMass G labels i).scaled (d i) := by
  unfold negativeMass
  rw [band_rowScaled hd]
  exact mass_rowScaled (fun x => decide_eq_decide.mpr (smul_neg_iff_of_pos_left (hd i)))
    fun x => decide_eq_decide.mpr (mul_lt_mul_iff_right₀ (hd i))

theorem positiveMass_rowScaled :
    positiveMass (G.rowScaled d) labels i = (positiveMass G labels i).scaled (d i) := by
  unfold positiveMass
  rw [band_rowScaled hd]
  exact mass_rowScaled (fun x => decide_eq_decide.mpr (mul_nonneg_iff_of_pos_left (hd i)))
    fun x => decide_eq_decide.mpr (mul_lt_mul_iff_right₀ (hd i))

/-- The diagonal of a scaled row, if the positive part is moved to both diagonals or to none. -/
theorem modifiedDiagonal_rowScaled
    (hlump : decide (|(positiveMass (G.rowScaled d) labels i).carried| < divisionGuard) =
      decide (|(positiveMass G labels i).carried| < divisionGuard)) :
    modifiedDiagonal (G.rowScaled d) labels i = d i * modifiedDiagonal G labels i := by
  have hstored : ((G.rowScaled d).operator.lastDiagonal? i).getD 0 =
      d i * (G.operator.lastDiagonal? i).getD 0 := by
    rw [StrengthGraph.operator_rowScaled, SparseMatrix.lastDiagonal?_rowScaled]
    cases G.operator.lastDiagonal? i with
    | none => exact (mul_zero (d i)).symm
    | some x => rfl
  have htotal : 0 < d i * (positiveMass G labels i).total ↔ 0 < (positiveMass G labels i).total :=
    mul_pos_iff_of_pos_left (hd i)
  rw [positiveMass_rowScaled hd] at hlump
  unfold modifiedDiagonal
  rw [positiveMass_rowScaled hd, hstored, magnitude_eq_abs, magnitude_eq_abs, mul_ite, mul_add]
  exact if_congr (and_congr htotal (decide_eq_decide.mp hlump)) rfl rfl

/-- The factors of a scaled row, if all tests come out the same. -/
theorem factors_rowScaled (hguard : guardTests (G.rowScaled d) labels i = guardTests G labels i) :
    factors (G.rowScaled d) labels (band (G.rowScaled d) labels i) i =
      ((factors G labels (band G labels i) i).1 / d i,
        (factors G labels (band G labels i) i).2 / d i) := by
  simp only [guardTests, compared, List.map_cons, List.map_nil, List.cons.injEq] at hguard
  obtain ⟨hlump, hnegativeKept, hpositiveKept, hpositive, hdiagonal, hnegative, -⟩ := hguard
  rw [modifiedDiagonal_rowScaled hd hlump] at hdiagonal
  rw [negativeMass_rowScaled hd] at hnegativeKept hnegative
  rw [positiveMass_rowScaled hd] at hpositiveKept hpositive
  have hne := (hd i).ne'
  rw [factors_eq, factors_eq, modifiedDiagonal_rowScaled hd hlump, negativeMass_rowScaled hd,
    positiveMass_rowScaled hd, Mass.factor_scaled hne hnegativeKept hdiagonal hnegative,
    Mass.factor_scaled hne hpositiveKept hdiagonal hpositive]

/-- The same entries of a scaled row are kept. -/
theorem isKept_rowScaled :
    isKept labels (band (G.rowScaled d) labels i) i ∘ Connection.scaled (d i) =
      isKept labels (band G labels i) i := by
  funext c
  have hinside := Band.isInside_scaled (hd i) (band G labels i) c.value
  rw [band_rowScaled hd]
  exact congrArg (c.strong && decide (labels.get c.column = .coarse) &&
    decide (labels.get i ≠ .coarse) && !·) hinside

/-- A scaled row has the weights of the row, if all tests come out the same. -/
theorem rows_rowScaled (hguard : labels.get i ≠ .coarse →
    guardTests (G.rowScaled d) labels i = guardTests G labels i) :
    rows (G.rowScaled d) labels i = rows G labels i := by
  unfold rows row
  split_ifs with hi
  · rfl
  unfold weights
  rw [factors_rowScaled hd (hguard hi), StrengthGraph.row_rowScaled, List.filter_map,
    isKept_rowScaled hd]
  dsimp only
  rw [List.map_map]
  apply List.map_congr_left
  intro c _
  have hsign : (Connection.scaled (d i) c).value < 0 ↔ c.value < 0 :=
    smul_neg_iff_of_pos_left (hd i)
  -- the factor of the row is divided out
  have hcancel (x : Rat) : x / d i * (d i * c.value) = x * c.value := by
    rw [← mul_assoc, div_mul_cancel₀ _ (hd i).ne']
  refine congrArg (Entry.mk c.column) ?_
  by_cases hneg : c.value < 0
  · rw [if_pos (hsign.mpr hneg), if_pos hneg]
    exact hcancel _
  · rw [if_neg (hsign.not.mpr hneg), if_neg hneg]
    exact hcancel _

end Rows

/-- Direct interpolation of a scaled operator gives the prolongator of the operator. -/
theorem prolongator_rowScaled {R : Type} (hd : ∀ i, 0 < d i)
    (hguard : ∀ i, labels.get i ≠ .coarse →
      guardTests (G.rowScaled d) labels i = guardTests G labels i) :
    prolongator (G.rowScaled d) labels n =
      (prolongator G labels n : Except (Fault R) (RowBuffer Rat n)) := by
  rw [prolongator_eq_ok (countsKept_exact _ labels), prolongator_eq_ok (countsKept_exact G labels)]
  rw [show rows (G.rowScaled d) labels = rows G labels from
    funext fun i => rows_rowScaled hd (hguard i)]

end Direct

end Multigrid
