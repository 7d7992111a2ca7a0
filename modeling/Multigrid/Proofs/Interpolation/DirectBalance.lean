import Multigrid.Proofs.Interpolation.CompactedRows
import Multigrid.Proofs.Interpolation.Reach
import Multigrid.Proofs.Interpolation.Subconvex
import Multigrid.Proofs.Strength.Dominant

/-!
# The balance of direct interpolation

The strong entries of a dominant operator are below zero, so the band of a row ends at zero, nothing
is added to the diagonal, and all weights have the factor of negative entries.  With `T` for the sum
of the off-diagonal entries, `C` for that of the strong coarse ones and `K` for that of the entries
that are kept, `T ≤ C ≤ K ≤ 0`.  The weights sum up to `-T / d` for the diagonal entry `d`, or to
the part `K / C` of that if `K` counts as zero, or to zero.  A row sum that is not negative says
that `-T` is at most `d`.

## Main definitions

* `Direct.negativeMass`, `Direct.positiveMass`, `Direct.modifiedDiagonal`: what a row is built from
* `Direct.keptValues`: the entries that are kept

## Main results

* `Direct.isSubconvex_rows`: the weights of a row
* `Direct.sum_valuesOf_rows_eq_one`: the weights of a row whose sum is zero
-/

namespace Multigrid

namespace Direct

variable {n : Nat}

theorem roundedSum_eq (values : List Rat) : roundedSum values = values.sum :=
  (foldl_add_eq_sum_map id values 0).trans (by rw [List.map_id, zero_add])

section Definitions

variable (G : StrengthGraph Rat n) (labels : Vector Label n) (i : Fin n)

/-- The sums over the negative entries of row `i`. -/
def negativeMass : Mass Rat := mass G labels i (· < 0) ((band G labels i).lower < ·)

/-- The sums over the other ones. -/
def positiveMass : Mass Rat := mass G labels i (0 ≤ ·) (· < (band G labels i).upper)

/-- The diagonal entry of row `i`, with a positive part added that has no strong coarse entry. -/
def modifiedDiagonal : Rat :=
  let stored := (G.operator.lastDiagonal? i).getD 0
  if 0 < (positiveMass G labels i).total ∧
      Arith.magnitude (positiveMass G labels i).carried < divisionGuard then
    stored + (positiveMass G labels i).total
  else stored

/-- The strong coarse entries of row `i` up to the lower end of the band. -/
def keptValues : List Rat :=
  ((strongCoarse G labels i).filter fun c => c.value ≤ (band G labels i).lower).map (·.value)

/-- The part of the strong coarse entries that the kept ones are made up to. -/
def keptPart : Rat :=
  if divisionGuard < |(keptValues G labels i).sum| then 1
  else (keptValues G labels i).sum / (negativeMass G labels i).carried

/-- The quantities that are compared with the guard in row `i`. -/
def compared : List Rat :=
  [(negativeMass G labels i).carried - (negativeMass G labels i).dropped,
    (positiveMass G labels i).carried - (positiveMass G labels i).dropped,
    (positiveMass G labels i).carried, modifiedDiagonal G labels i,
    (negativeMass G labels i).carried]

theorem factors_eq : factors G labels (band G labels i) i =
    ((negativeMass G labels i).factor (modifiedDiagonal G labels i),
      (positiveMass G labels i).factor (modifiedDiagonal G labels i)) := by
  simp only [factors, negativeMass, positiveMass, modifiedDiagonal]
  rfl

end Definitions

variable {G : StrengthGraph Rat n} {labels : Vector Label n} {i : Fin n}

theorem mem_strongCoarse {c : Connection Rat n} : c ∈ strongCoarse G labels i ↔
    c ∈ G.row i ∧ c.strong = true ∧ labels.get c.column = .coarse := by
  rw [strongCoarse, List.mem_filter, StrengthGraph.mem_strongRow, decide_eq_true_iff, and_assoc]

section Dominant

variable (h : G.IsDominant)

include h

/-! ## The band -/

theorem neg_of_mem_strongCoarse {c : Connection Rat n} (hc : c ∈ strongCoarse G labels i) :
    c.value < 0 :=
  (h.strong_neg i c (mem_strongCoarse.mp hc).1 (mem_strongCoarse.mp hc).2.1).2

variable (hi : labels.get i ≠ .coarse)

include hi

theorem upper_band : (band G labels i).upper = 0 := by
  rw [band, if_neg hi]
  have hgreatest := isGreatest_foldl_greatest 0 ((strongCoarse G labels i).map (·.value))
  have hzero : ((strongCoarse G labels i).map (·.value)).foldl Arith.greatest 0 = 0 := by
    refine le_antisymm ?_ (hgreatest.2 List.mem_cons_self)
    rcases List.mem_cons.mp hgreatest.1 with heq | hmem
    · exact heq.le
    · obtain ⟨c, hc, heq⟩ := List.mem_map.mp hmem
      exact heq ▸ (neg_of_mem_strongCoarse h hc).le
  exact mul_eq_zero_of_left hzero _

theorem isInside_band {x : Rat} (hx : x < 0) :
    (band G labels i).isInside x = !decide (x ≤ (band G labels i).lower) := by
  have hiff : ((band G labels i).lower < x ∧ x < (band G labels i).upper) ↔
      ¬ x ≤ (band G labels i).lower := by
    rw [upper_band h hi, not_le, and_iff_left hx]
  exact (decide_eq_decide.mpr hiff).trans decide_not

/-- Strong coarse entries are kept up to the lower end of the band. -/
theorem filter_isKept : (G.row i).filter (isKept labels (band G labels i) i) =
    (strongCoarse G labels i).filter fun c => c.value ≤ (band G labels i).lower := by
  rw [Extended.strongCoarse_eq_filter, List.filter_filter]
  apply List.filter_congr
  intro c hc
  cases hstrong : c.strong with
  | false => simp [isKept, hstrong]
  | true => simp [isKept, hstrong, hi, isInside_band h hi (h.strong_neg i c hc hstrong).2,
      Bool.and_comm]

/-! ## Sums -/

omit hi

/-- Strong entries lie off the diagonal. -/
theorem filter_carried (hasSign : Rat → Bool) :
    ((G.row i).filter fun c => decide (c.column ≠ i) && hasSign c.value).filter
        (fun c => c.strong && decide (labels.get c.column = .coarse)) =
      (strongCoarse G labels i).filter fun c => hasSign c.value := by
  rw [Extended.strongCoarse_eq_filter, List.filter_filter, List.filter_filter]
  apply List.filter_congr
  intro c hc
  cases hstrong : c.strong with
  | false => simp
  | true =>
    rw [decide_eq_true (h.strong_neg i c hc hstrong).1]
    simp [Bool.and_comm]

/-- All strong coarse entries are negative. -/
theorem filter_carried_neg :
    ((G.row i).filter fun c => decide (c.column ≠ i) && decide (c.value < 0)).filter
        (fun c => c.strong && decide (labels.get c.column = .coarse)) =
      strongCoarse G labels i := by
  rw [filter_carried h fun x => decide (x < 0)]
  exact List.filter_eq_self.mpr fun _ hc => decide_eq_true (neg_of_mem_strongCoarse h hc)

theorem carried_negativeMass : (negativeMass G labels i).carried =
    ((strongCoarse G labels i).map (·.value)).sum := by
  rw [← filter_carried_neg h, ← roundedSum_eq]
  rfl

theorem carried_sub_dropped : (negativeMass G labels i).carried -
    (negativeMass G labels i).dropped = (keptValues G labels i).sum := by
  have hdropped : (negativeMass G labels i).dropped = (((strongCoarse G labels i).filter
      fun c => decide ((band G labels i).lower < c.value)).map (·.value)).sum := by
    rw [← filter_carried_neg h, ← roundedSum_eq]
    rfl
  -- what is not kept is dropped
  have hnot : (fun c : Connection Rat n => decide ((band G labels i).lower < c.value)) =
      fun c => !decide (c.value ≤ (band G labels i).lower) := by
    funext c
    rw [← decide_not]
    exact decide_eq_decide.mpr not_le.symm
  rw [sub_eq_iff_eq_add, carried_negativeMass h, hdropped, keptValues, ← List.sum_append,
    ← List.map_append, hnot]
  exact ((List.filter_append_perm _ _).map _).sum_eq.symm

theorem total_negativeMass :
    (negativeMass G labels i).total = ∑ j with j ≠ i, G.operator.coefficient i j := by
  have hsum := StrengthGraph.sum_map_row h.operator.hasDistinctColumns i
    (f := fun _ j x => if (decide (j ≠ i) && decide (x < 0)) = true then x else 0)
    fun _ _ => ite_self 0
  have htotal : (negativeMass G labels i).total =
      (((G.row i).filter fun c => decide (c.column ≠ i) && decide (c.value < 0)).map
        (·.value)).sum := roundedSum_eq _
  rw [htotal, sum_map_filter, hsum, Finset.sum_filter]
  apply Finset.sum_congr rfl
  intro j _
  by_cases hj : j = i
  · simp [hj]
  · -- a coefficient that is not negative is zero
    rcases (h.operator.coefficient_nonpos hj).lt_or_eq with hlt | heq
    · simp [hj, hlt]
    · simp [heq]

theorem total_add_coefficient : (negativeMass G labels i).total + G.operator.coefficient i i =
    ∑ j, G.operator.coefficient i j := by
  rw [total_negativeMass h, Finset.filter_ne', Finset.sum_erase_add _ _ (Finset.mem_univ i)]

theorem total_le_carried :
    (negativeMass G labels i).total ≤ (negativeMass G labels i).carried := by
  have htotal : (negativeMass G labels i).total =
      (((G.row i).filter fun c => decide (c.column ≠ i) && decide (c.value < 0)).map
        (·.value)).sum := roundedSum_eq _
  rw [htotal, carried_negativeMass h, ← filter_carried_neg h]
  refine sum_le_sum_of_sublist (List.filter_sublist.map _) fun x hx => ?_
  obtain ⟨c, hc, rfl⟩ := List.mem_map.mp hx
  have hneg := (Bool.and_eq_true_iff.mp (List.mem_filter.mp hc).2).2
  exact (of_decide_eq_true hneg).le

theorem neg_of_mem_keptValues {x : Rat} (hx : x ∈ keptValues G labels i) : x < 0 := by
  obtain ⟨c, hc, rfl⟩ := List.mem_map.mp hx
  exact neg_of_mem_strongCoarse h (List.mem_of_mem_filter hc)

theorem carried_le_sum_keptValues :
    (negativeMass G labels i).carried ≤ (keptValues G labels i).sum := by
  rw [carried_negativeMass h, keptValues]
  refine sum_le_sum_of_sublist (List.filter_sublist.map _) fun x hx => ?_
  obtain ⟨c, hc, rfl⟩ := List.mem_map.mp hx
  exact (neg_of_mem_strongCoarse h hc).le

theorem sum_keptValues_nonpos : (keptValues G labels i).sum ≤ 0 :=
  (List.sum_le_card_nsmul _ 0 fun _ hx => (neg_of_mem_keptValues h hx).le).trans_eq (smul_zero _)

/-- The other entries off the diagonal are zero. -/
theorem total_positiveMass : (positiveMass G labels i).total = 0 := by
  refine (roundedSum_eq _).trans (List.sum_eq_zero fun x hx => ?_)
  obtain ⟨c, hc, rfl⟩ := List.mem_map.mp hx
  obtain ⟨hmem, htest⟩ := List.mem_filter.mp hc
  obtain ⟨hne, hsign⟩ := Bool.and_eq_true_iff.mp htest
  exact le_antisymm (h.value_nonpos hmem (of_decide_eq_true hne)) (of_decide_eq_true hsign)

theorem modifiedDiagonal_eq : modifiedDiagonal G labels i = G.operator.coefficient i i := by
  unfold modifiedDiagonal
  rw [total_positiveMass h]
  rw [if_neg fun hpos => lt_irrefl 0 hpos.1]
  exact getLast?_filter_eq (h.operator.hasDistinctColumns i) i

/-! ## Weights -/

theorem modifiedDiagonal_nonneg : 0 ≤ modifiedDiagonal G labels i := by
  rw [modifiedDiagonal_eq h]
  exact h.operator.coefficient_self_nonneg

/-- The diagonal makes up for the entries off the diagonal. -/
theorem neg_total_le_modifiedDiagonal :
    -(negativeMass G labels i).total ≤ modifiedDiagonal G labels i := by
  rw [modifiedDiagonal_eq h, neg_le_iff_add_nonneg', total_add_coefficient h]
  exact h.operator.sum_coefficient_nonneg

theorem factor_nonpos : (negativeMass G labels i).factor (modifiedDiagonal G labels i) ≤ 0 := by
  have hkept : (keptValues G labels i).sum ≤ 0 := sum_keptValues_nonpos h
  have hcarried := (carried_le_sum_keptValues h).trans hkept
  have htotal := (total_le_carried h).trans hcarried
  have hcorrection : 0 ≤ (negativeMass G labels i).correction := by
    rw [Mass.correction, carried_sub_dropped h]
    split_ifs
    · exact div_nonneg_of_nonpos hcarried hkept
    · exact zero_le_one
  unfold Mass.factor
  split_ifs
  · apply div_nonpos_of_nonneg_of_nonpos
    · exact mul_nonneg_of_nonpos_of_nonpos (neg_nonpos.mpr hcorrection) htotal
    · exact mul_nonpos_of_nonneg_of_nonpos (modifiedDiagonal_nonneg h) hcarried
  · exact le_rfl

theorem keptPart_nonneg : 0 ≤ keptPart G labels i := by
  unfold keptPart
  split_ifs
  · exact zero_le_one
  · have hkept : (keptValues G labels i).sum ≤ 0 := sum_keptValues_nonpos h
    exact div_nonneg_of_nonpos hkept ((carried_le_sum_keptValues h).trans hkept)

theorem keptPart_le_one (hcarried : divisionGuard < |(negativeMass G labels i).carried|) :
    keptPart G labels i ≤ 1 := by
  unfold keptPart
  split_ifs
  · exact le_rfl
  · have hle : (negativeMass G labels i).carried ≤ 0 :=
      (carried_le_sum_keptValues h).trans (sum_keptValues_nonpos h)
    have hneg := lt_of_le_of_ne hle (abs_pos.mp (divisionGuard_pos.trans hcarried))
    exact (div_le_one_of_neg hneg).mpr (carried_le_sum_keptValues h)

/-- The kept entries make up for all of the off-diagonal ones, or for a part of them. -/
theorem factor_mul_sum_keptValues
    (hdiagonal : divisionGuard < |modifiedDiagonal G labels i|)
    (hcarried : divisionGuard < |(negativeMass G labels i).carried|) :
    (negativeMass G labels i).factor (modifiedDiagonal G labels i) * (keptValues G labels i).sum =
      -(negativeMass G labels i).total / modifiedDiagonal G labels i *
        keptPart G labels i := by
  have hd := abs_pos.mp (divisionGuard_pos.trans hdiagonal)
  have hc := abs_pos.mp (divisionGuard_pos.trans hcarried)
  rw [Mass.factor, magnitude_eq_abs, magnitude_eq_abs, if_pos ⟨hdiagonal, hcarried⟩,
    Mass.correction, magnitude_eq_abs, carried_sub_dropped h, keptPart]
  split_ifs with hkept
  · have hk := abs_pos.mp (divisionGuard_pos.trans hkept)
    field_simp
  · field_simp

variable (hi : labels.get i ≠ .coarse)

include hi

theorem valuesOf_rows : valuesOf (rows G labels i) = (keptValues G labels i).map fun x =>
    (negativeMass G labels i).factor (modifiedDiagonal G labels i) * x := by
  rw [rows, row, if_neg hi, weights, factors_eq, valuesOf, List.map_map, filter_isKept h hi,
    keptValues, List.map_map]
  apply List.map_congr_left
  intro c hc
  have hneg := neg_of_mem_strongCoarse h (List.mem_of_mem_filter hc)
  exact congrArg (· * c.value) (if_pos hneg)

theorem sum_valuesOf_rows : (valuesOf (rows G labels i)).sum =
    (negativeMass G labels i).factor (modifiedDiagonal G labels i) *
      (keptValues G labels i).sum := by
  rw [valuesOf_rows h hi, List.sum_map_mul_left, List.map_id']

theorem isSubconvex_rows : IsSubconvex (valuesOf (rows G labels i)) := by
  constructor
  · intro x hx
    rw [valuesOf_rows h hi] at hx
    obtain ⟨y, hy, rfl⟩ := List.mem_map.mp hx
    exact mul_nonneg_of_nonpos_of_nonpos (factor_nonpos h) (neg_of_mem_keptValues h hy).le
  · rw [sum_valuesOf_rows h hi]
    by_cases hguard : divisionGuard < |modifiedDiagonal G labels i| ∧
        divisionGuard < |(negativeMass G labels i).carried|
    · rw [factor_mul_sum_keptValues h hguard.1 hguard.2]
      have hpos : 0 < modifiedDiagonal G labels i := lt_of_le_of_ne (modifiedDiagonal_nonneg h)
        (abs_pos.mp (divisionGuard_pos.trans hguard.1)).symm
      have hquotient : -(negativeMass G labels i).total / modifiedDiagonal G labels i ≤ 1 :=
        (div_le_one hpos).mpr (neg_total_le_modifiedDiagonal h)
      exact mul_le_one₀ hquotient (keptPart_nonneg h) (keptPart_le_one h hguard.2)
    · rw [Mass.factor, magnitude_eq_abs, magnitude_eq_abs, if_neg hguard, zero_mul]
      exact zero_le_one

/-! ### Rows whose sum is zero -/

omit hi in
/-- A row with a strong coarse entry keeps the least of them. -/
theorem sum_keptValues_neg (hi : labels.get i ≠ .coarse) {j : Fin n} (hij : G.IsStrong i j)
    (hj : labels.get j = .coarse) : (keptValues G labels i).sum < 0 := by
  obtain ⟨c, hc, hstrong, rfl⟩ := hij
  have hmem := mem_strongCoarse.mpr ⟨hc, hstrong, hj⟩
  obtain ⟨least, hleast⟩ : ∃ least, least =
    ((strongCoarse G labels i).map (·.value)).foldl Arith.least (0 : Rat) := ⟨_, rfl⟩
  have hisLeast := isLeast_foldl_least 0 ((strongCoarse G labels i).map (·.value))
  rw [← hleast] at hisLeast
  have hneg : least < 0 :=
    (hisLeast.2 (List.mem_cons_of_mem _ (List.mem_map_of_mem hmem))).trans_lt
      (neg_of_mem_strongCoarse h hmem)
  have hlower : (band G labels i).lower = least * bandRatio := by
    rw [band, if_neg hi, hleast]
  obtain ⟨e, he, heq⟩ := List.mem_map.mp ((List.mem_cons.mp hisLeast.1).resolve_left hneg.ne)
  have hkept : least ∈ keptValues G labels i := by
    rw [← heq]
    refine List.mem_map_of_mem (List.mem_filter.mpr ⟨he, decide_eq_true ?_⟩)
    rw [hlower, heq]
    have hratio : (bandRatio : Rat) ≤ 1 := by
      rw [show (bandRatio : Rat) = 0.2 from rfl]
      norm_num
    exact le_mul_of_le_one_right hneg.le hratio
  have hle := sum_le_sum_of_sublist (List.singleton_sublist.mpr hkept) fun x hx =>
    (neg_of_mem_keptValues h hx).le
  rw [List.sum_singleton] at hle
  exact hle.trans_lt hneg

theorem sum_valuesOf_rows_eq_one {j : Fin n} (hij : G.IsStrong i j)
    (hj : labels.get j = .coarse) (hzero : ∑ j, G.operator.coefficient i j = 0)
    (hguard : ∀ x ∈ compared G labels i, x ≠ 0 → divisionGuard < |x|) :
    (valuesOf (rows G labels i)).sum = 1 := by
  have hkept := sum_keptValues_neg h hi hij hj
  have hcarried := (carried_le_sum_keptValues h).trans_lt hkept
  have htotal := (total_le_carried h).trans_lt hcarried
  have hbalance : (negativeMass G labels i).total + modifiedDiagonal G labels i = 0 := by
    rw [modifiedDiagonal_eq h, total_add_coefficient h, hzero]
  have hdiagonal : modifiedDiagonal G labels i ≠ 0 := by
    intro heq
    rw [heq, add_zero] at hbalance
    exact htotal.ne hbalance
  rw [sum_valuesOf_rows h hi, factor_mul_sum_keptValues h
    (hguard _ (by simp [compared]) hdiagonal) (hguard _ (by simp [compared]) hcarried.ne),
    keptPart, if_pos, mul_one, div_eq_one_iff_eq hdiagonal]
  · exact neg_eq_of_add_eq_zero_right hbalance
  · rw [← carried_sub_dropped h] at hkept ⊢
    exact hguard _ (by simp [compared]) hkept.ne

end Dominant

end Direct

end Multigrid
