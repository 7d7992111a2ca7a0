import Multigrid.Interpolation.Truncation
import Multigrid.Proofs.Sparse.Coefficient

/-!
# Subconvex weights

Weights are subconvex if none of them is negative and their sum is at most one, so that they take
values of coarse points to a value between zero and the extremes.  Truncation keeps weights
subconvex.  It scales the kept weights to the old sum, unless their own sum counts as zero, and then
their sum is not larger than the old one.

## Main definitions

* `IsSubconvex`: subconvex weights

## Main results

* `Truncation.isSubconvex_row`: truncated weights
* `Truncation.sum_valuesOf_row`: truncated weights whose sum is one
-/

namespace Multigrid

variable {n : Nat}

/-- No weight is negative, and the sum is at most one. -/
structure IsSubconvex (weights : List Rat) : Prop where
  /-- The weights. -/
  nonneg : ∀ x ∈ weights, 0 ≤ x
  /-- Their sum. -/
  sum_le_one : weights.sum ≤ 1

theorem isSubconvex_one : IsSubconvex [1] where
  nonneg x hx := by
    obtain rfl := List.mem_singleton.mp hx
    exact zero_le_one
  sum_le_one := (List.sum_singleton).le

namespace Truncation

variable {ratio : Rat} {entries : List (Entry n Rat)}

theorem rowSum_eq (entries : List (Entry n Rat)) : rowSum entries = (valuesOf entries).sum :=
  (foldl_add_eq_sum_map Entry.value entries 0).trans (zero_add _)

theorem mem_valuesOf_kept {x : Rat} (hx : x ∈ valuesOf (kept ratio entries)) :
    x ∈ valuesOf entries := by
  obtain ⟨e, he, rfl⟩ := List.mem_map.mp hx
  exact List.mem_map_of_mem (List.mem_of_mem_filter he)

theorem valuesOf_row :
    valuesOf (row ratio entries) =
      (valuesOf (kept ratio entries)).map fun x => x * scale ratio entries := by
  rw [valuesOf, row, List.map_map, valuesOf, List.map_map]
  rfl

/-- The sum of truncated weights: the old one, or that of the kept weights. -/
theorem sum_valuesOf_row_cases (ratio : Rat) (entries : List (Entry n Rat)) :
    divisionGuard < |(valuesOf (kept ratio entries)).sum| ∧
        (valuesOf (row ratio entries)).sum = (valuesOf entries).sum ∨
      ¬ divisionGuard < |(valuesOf (kept ratio entries)).sum| ∧
        (valuesOf (row ratio entries)).sum = (valuesOf (kept ratio entries)).sum := by
  have hsum : (valuesOf (row ratio entries)).sum =
      (valuesOf (kept ratio entries)).sum * scale ratio entries := by
    rw [valuesOf_row, List.sum_map_mul_right, List.map_id']
  by_cases hguard : divisionGuard < |(valuesOf (kept ratio entries)).sum|
  · refine .inl ⟨hguard, ?_⟩
    have hpos := divisionGuard_pos.trans hguard
    rw [hsum, scale, rowSum_eq, rowSum_eq, magnitude_eq_abs, if_pos hguard,
      mul_div_cancel₀ _ (abs_pos.mp hpos)]
  · have hscale : scale ratio entries = 1 := by
      rw [scale, rowSum_eq, magnitude_eq_abs, if_neg hguard]
    exact .inr ⟨hguard, by rw [hsum, hscale, mul_one]⟩

variable (hnonneg : ∀ x ∈ valuesOf entries, 0 ≤ x)

include hnonneg

theorem sum_kept_nonneg : 0 ≤ (valuesOf (kept ratio entries)).sum :=
  List.sum_nonneg fun x hx => hnonneg x (mem_valuesOf_kept hx)

theorem sum_kept_le : (valuesOf (kept ratio entries)).sum ≤ (valuesOf entries).sum :=
  (List.filter_sublist.map Entry.value).sum_le_sum hnonneg

theorem scale_nonneg : 0 ≤ scale ratio entries := by
  rw [scale, rowSum_eq, rowSum_eq]
  split_ifs
  · exact div_nonneg (List.sum_nonneg hnonneg) (sum_kept_nonneg hnonneg)
  · exact zero_le_one

/-- The largest weight is kept, if the ratio is at most one, and no weight is above what is kept. -/
theorem le_sum_kept (hratio : ratio ≤ 1) {x : Rat} (hx : x ∈ valuesOf entries) :
    x ≤ (valuesOf (kept ratio entries)).sum := by
  obtain ⟨most, hmost⟩ : ∃ most, most = entries.foldl
    (fun (most : Rat) e => Arith.greatest most (Storage.magnitude e.value)) 0 := ⟨_, rfl⟩
  have hgreatest := isGreatest_foldl_greatest 0
    (entries.map fun e => Storage.magnitude e.value)
  rw [List.foldl_map, ← hmost] at hgreatest
  have hmagnitude : ∀ e ∈ entries, Storage.magnitude e.value = e.value := fun e he =>
    (magnitude_eq_abs e.value).trans (abs_of_nonneg (hnonneg e.value (List.mem_map_of_mem he)))
  have hle : x ≤ most := by
    obtain ⟨e, he, rfl⟩ := List.mem_map.mp hx
    rw [← hmagnitude e he]
    exact hgreatest.2 (List.mem_cons_of_mem _ (List.mem_map_of_mem he))
  refine hle.trans ?_
  -- the largest magnitude is the zero to start from, or that of an entry
  rcases List.mem_cons.mp hgreatest.1 with heq | hmem
  · rw [heq]
    exact sum_kept_nonneg hnonneg
  · obtain ⟨e, he, heq⟩ := List.mem_map.mp hmem
    have hpos : 0 ≤ most := hgreatest.2 List.mem_cons_self
    have hkept : e ∈ kept ratio entries := by
      refine List.mem_filter.mpr ⟨he, decide_eq_true ?_⟩
      rw [threshold, ← hmost, heq]
      exact mul_le_of_le_one_right hpos hratio
    rw [← heq, hmagnitude e he]
    exact List.single_le_sum (fun y hy => hnonneg y (mem_valuesOf_kept hy)) _
      (List.mem_map_of_mem hkept)

theorem sum_kept_pos (hratio : ratio ≤ 1) (hpos : 0 < (valuesOf entries).sum) :
    0 < (valuesOf (kept ratio entries)).sum := by
  by_contra hle
  have hnone : ∀ x ∈ valuesOf entries, x ≤ 0 := fun x hx =>
    (le_sum_kept hnonneg hratio hx).trans (not_lt.mp hle)
  exact absurd ((List.sum_le_card_nsmul _ 0 hnone).trans_eq (smul_zero _)) (not_le.mpr hpos)

omit hnonneg in
theorem isSubconvex_row (h : IsSubconvex (valuesOf entries)) (ratio : Rat) :
    IsSubconvex (valuesOf (row ratio entries)) where
  nonneg x hx := by
    rw [valuesOf_row] at hx
    obtain ⟨y, hy, rfl⟩ := List.mem_map.mp hx
    exact mul_nonneg (h.nonneg y (mem_valuesOf_kept hy)) (scale_nonneg h.nonneg)
  sum_le_one := by
    rcases sum_valuesOf_row_cases ratio entries with ⟨-, hsum⟩ | ⟨-, hsum⟩
    · exact hsum.trans_le h.sum_le_one
    · exact hsum.trans_le ((sum_kept_le h.nonneg).trans h.sum_le_one)

theorem sum_valuesOf_row (hratio : ratio ≤ 1) (hone : (valuesOf entries).sum = 1)
    (hguard : (rowSum (kept ratio entries) : Rat) ≠ 0 →
      divisionGuard < |(rowSum (kept ratio entries) : Rat)|) :
    (valuesOf (row ratio entries)).sum = 1 := by
  rw [rowSum_eq] at hguard
  have hpos := sum_kept_pos hnonneg hratio (zero_lt_one.trans_eq hone.symm)
  rcases sum_valuesOf_row_cases ratio entries with ⟨-, hsum⟩ | ⟨hsmall, -⟩
  · exact hsum.trans hone
  · exact absurd (hguard hpos.ne') hsmall

end Truncation

end Multigrid
