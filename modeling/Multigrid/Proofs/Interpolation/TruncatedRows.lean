import Multigrid.Proofs.Interpolation.CompactedRows
import Multigrid.Proofs.Interpolation.Subconvex

/-!
# Truncated rows

Truncation keeps the entries of a row whose magnitude is at least a given part of the largest one,
the survivors, and multiplies all of them by one factor.  The largest entry is a survivor, since the
part is at most the whole, so a row that has entries keeps one.

The factor takes the sum of the survivors to the sum of the row.  There is no such factor if the
survivors cancel out, and then they stay as they are.  They also stay as they are if every entry is
a survivor, because the two sums are the same one.

## Main definitions

* `Truncation.largest`, `Truncation.survivors`: the largest magnitude and the entries that reach a
  part of it
* `Truncation.scaled`: entries with multiplied values
* `Truncation.IsTruncated`: a row and what is left of it

## Main results

* `Truncation.row_eq_scaled`: a truncated row as its multiplied survivors
* `Truncation.row_eq_self`: rows that nothing is dropped from
* `Truncation.exists_truncated_eq_ok`: the truncated rows of a matrix
-/

namespace Multigrid

namespace Truncation

variable {m n : Nat}

/-- The largest magnitude of the entries, zero if there are none. -/
def largest (entries : List (Entry n Rat)) : Rat := (entries.map fun e => |e.value|).foldr max 0

/-- The entries whose magnitude is at least a part of the largest one. -/
def survivors (ratio : Rat) (entries : List (Entry n Rat)) : List (Entry n Rat) :=
  entries.filter fun e => ratio * largest entries ≤ |e.value|

/-- The entries with their values multiplied by a factor. -/
def scaled (factor : Rat) (entries : List (Entry n Rat)) : List (Entry n Rat) :=
  entries.map fun e => ⟨e.column, e.value * factor⟩

variable {ratio : Rat} {entries : List (Entry n Rat)}

/-! ## The largest magnitude -/

theorem largest_cons (e : Entry n Rat) (entries : List (Entry n Rat)) :
    largest (e :: entries) = max |e.value| (largest entries) := rfl

theorem largest_nonneg : 0 ≤ largest entries := by
  induction entries with
  | nil => exact le_rfl
  | cons e entries ih => exact le_max_of_le_right ih

theorem le_largest {e : Entry n Rat} (he : e ∈ entries) : |e.value| ≤ largest entries := by
  induction entries with
  | nil => cases he
  | cons e' entries ih =>
    rcases List.mem_cons.mp he with rfl | he
    · exact le_max_left _ _
    · exact le_max_of_le_right (ih he)

theorem exists_largest_or_eq_zero (entries : List (Entry n Rat)) :
    (∃ e ∈ entries, |e.value| = largest entries) ∨ largest entries = 0 := by
  induction entries with
  | nil => exact .inr rfl
  | cons e entries ih =>
    rw [largest_cons]
    rcases le_total (largest entries) |e.value| with hle | hle
    · exact .inl ⟨e, List.mem_cons_self, (max_eq_left hle).symm⟩
    · rw [max_eq_right hle]
      exact ih.imp_left fun ⟨e', he', heq⟩ => ⟨e', List.mem_cons_of_mem _ he', heq⟩

/-- The largest magnitude is that of an entry. -/
theorem exists_largest (h : entries ≠ []) : ∃ e ∈ entries, |e.value| = largest entries := by
  refine (exists_largest_or_eq_zero entries).elim id fun hzero => ?_
  -- if the largest magnitude is zero then so is every other one
  obtain ⟨e, he⟩ := List.exists_mem_of_ne_nil entries h
  exact ⟨e, he, le_antisymm (le_largest he) (hzero.trans_le (abs_nonneg _))⟩

theorem threshold_eq (ratio : Rat) (entries : List (Entry n Rat)) :
    threshold ratio entries = ratio * largest entries := by
  -- the folds run in opposite directions, but both find the greatest of zero and the magnitudes
  have hgreatest := isGreatest_foldl_greatest 0 (entries.map fun e => |e.value|)
  have hlargest : IsGreatest {x | x ∈ 0 :: entries.map fun e => |e.value|} (largest entries) := by
    refine ⟨?_, fun x hx => ?_⟩
    · rcases exists_largest_or_eq_zero entries with ⟨e, he, heq⟩ | hzero
      · exact List.mem_cons_of_mem _ (heq ▸ List.mem_map_of_mem he)
      · exact hzero ▸ List.mem_cons_self
    · rcases List.mem_cons.mp hx with rfl | hx
      · exact largest_nonneg
      · obtain ⟨e, he, rfl⟩ := List.mem_map.mp hx
        exact le_largest he
  rw [mul_comm, hlargest.unique hgreatest, List.foldl_map]
  simp only [← magnitude_eq_abs]
  rfl

/-! ## Survivors -/

theorem kept_eq_survivors (ratio : Rat) (entries : List (Entry n Rat)) :
    kept ratio entries = survivors ratio entries := by
  refine List.filter_congr fun e _ => decide_eq_decide.mpr ?_
  rw [threshold_eq, ← magnitude_eq_abs]
  rfl

theorem survivors_zero : survivors 0 entries = entries := by
  refine List.filter_eq_self.mpr fun e _ => decide_eq_true ?_
  rw [zero_mul]
  exact abs_nonneg _

/-- The largest entry survives. -/
theorem exists_survivor (hratio : ratio ≤ 1) (h : entries ≠ []) :
    ∃ e ∈ survivors ratio entries, |e.value| = largest entries := by
  obtain ⟨e, he, heq⟩ := exists_largest h
  refine ⟨e, List.mem_filter.mpr ⟨he, decide_eq_true ?_⟩, heq⟩
  rw [heq]
  exact mul_le_of_le_one_left largest_nonneg hratio

/-! ## Factors -/

theorem scaled_one : scaled 1 entries = entries := by
  simp [scaled]

theorem sum_valuesOf_scaled (factor : Rat) (entries : List (Entry n Rat)) :
    (valuesOf (scaled factor entries)).sum = (valuesOf entries).sum * factor := by
  have hvalues : valuesOf (scaled factor entries) = (valuesOf entries).map (· * factor) := by
    rw [valuesOf, scaled, List.map_map, valuesOf, List.map_map]
    rfl
  rw [hvalues, List.sum_map_mul_right, List.map_id']

/-- A truncated row consists of the survivors, all multiplied by one factor. -/
theorem row_eq_scaled (ratio : Rat) (entries : List (Entry n Rat)) :
    row ratio entries = scaled (scale ratio entries) (survivors ratio entries) := by
  rw [← kept_eq_survivors]
  rfl

theorem scale_eq (ratio : Rat) (entries : List (Entry n Rat)) :
    scale ratio entries =
      if exceedsGuard (valuesOf (survivors ratio entries)).sum then
        (valuesOf entries).sum / (valuesOf (survivors ratio entries)).sum
      else 1 := by
  simp only [scale, rowSum_eq, kept_eq_survivors, magnitude_eq_abs, exceedsGuard,
    decide_eq_true_eq]

theorem ne_zero_of_exceedsGuard {x : Rat} (h : exceedsGuard x) : x ≠ 0 :=
  abs_pos.mp (divisionGuard_pos.trans (of_decide_eq_true h))

/-- A row of which every entry survives stays as it is. -/
theorem row_eq_self (h : survivors ratio entries = entries) : row ratio entries = entries := by
  have hscale : scale ratio entries = 1 := by
    -- the sum of the row is divided by itself, or by nothing if it counts as zero
    rw [scale_eq, h]
    split_ifs with hguard
    · exact div_self (ne_zero_of_exceedsGuard hguard)
    · rfl
  rw [row_eq_scaled, hscale, h, scaled_one]

/-! ## Truncated rows -/

/-- The row `truncated` is what truncation leaves of the row `entries`. -/
structure IsTruncated (ratio : Rat) (entries truncated : List (Entry n Rat)) : Prop where
  /-- The survivors are multiplied by one factor, and they stay in their order. -/
  exists_factor : ∃ factor, truncated = scaled factor (survivors ratio entries)
  /-- A row that has entries keeps one. -/
  ne_nil : entries ≠ [] → truncated ≠ []
  /-- The sum of the row stays the same, unless the sum of the survivors counts as zero. -/
  sum_eq : exceedsGuard (valuesOf (survivors ratio entries)).sum →
    (valuesOf truncated).sum = (valuesOf entries).sum
  /-- If the sum of the survivors counts as zero, they are copied. -/
  eq_survivors : ¬ exceedsGuard (valuesOf (survivors ratio entries)).sum →
    truncated = survivors ratio entries

theorem isTruncated_row (hratio : ratio ≤ 1) (entries : List (Entry n Rat)) :
    IsTruncated ratio entries (row ratio entries) where
  exists_factor := ⟨_, row_eq_scaled ratio entries⟩
  ne_nil h := by
    obtain ⟨e, he, -⟩ := exists_survivor hratio h
    rw [row_eq_scaled]
    exact List.ne_nil_of_mem (List.mem_map_of_mem he)
  sum_eq hguard := by
    rw [row_eq_scaled, sum_valuesOf_scaled, scale_eq, if_pos hguard,
      mul_div_cancel₀ _ (ne_zero_of_exceedsGuard hguard)]
  eq_survivors hguard := by
    rw [row_eq_scaled, scale_eq, if_neg hguard, scaled_one]

/-- Truncation with a ratio from zero to one does not fail.  It counts the survivors of every row,
and what is left of a row are its survivors.  With the ratio zero the matrix stays the same. -/
theorem exists_truncated_eq_ok (P : SparseMatrix Rat m n) (hratio : 0 ≤ ratio ∧ ratio ≤ 1) :
    ∃ Q : SparseMatrix Rat m n, truncated P ratio m = .ok Q ∧
      rowSizes P ratio = .ok ((List.finRange m).map fun i => (survivors ratio (P.row i)).length) ∧
      (∀ i, IsTruncated ratio (P.row i) (Q.row i)) ∧
      (ratio = 0 → Q = P) := by
  refine ⟨.ofRows (rows P ratio), truncated_eq_ok P hratio, ?_, fun i => ?_, ?_⟩
  · rw [rowSizes_eq_ok P hratio]
    simp only [length_rows, kept_eq_survivors]
  · rw [SparseMatrix.row_ofRows]
    exact isTruncated_row hratio.2 (P.row i)
  · rintro rfl
    apply SparseMatrix.eq_of_row_eq
    intro i
    rw [SparseMatrix.row_ofRows]
    exact row_eq_self survivors_zero

/-- Two unsorted rows that store a column twice.  An entry of the first one ties with one half of
the largest, and the large entries of the second one cancel out. -/
def mixedRows : SparseMatrix Rat 3 6 :=
  .ofRows ![[⟨5, 1 / 2⟩, ⟨0, -1 / 4⟩, ⟨5, 1⟩, ⟨3, 0⟩], [⟨1, 1⟩, ⟨2, 1 / 4⟩, ⟨1, -1⟩], []]

/-- Truncation by one half takes two survivors of the first row to the sum `5 / 4`, and copies those
of the second one; by zero it drops nothing. -/
theorem exists_truncated_mixedRows :
    (0 ≤ (1 / 2 : Rat) ∧ (1 / 2 : Rat) ≤ 1) ∧
    ∃ Q : SparseMatrix Rat 3 6, truncated mixedRows (1 / 2 : Rat) 3 = .ok Q ∧
      rowSizes mixedRows (1 / 2 : Rat) = .ok [2, 2, 0] ∧
      (∃ factor, Q.row 0 = [⟨5, 1 / 2 * factor⟩, ⟨5, 1 * factor⟩]) ∧
      (valuesOf (Q.row 0)).sum = 5 / 4 ∧ Q.row 1 = [⟨1, 1⟩, ⟨1, -1⟩] ∧
      truncated mixedRows (0 : Rat) 3 = .ok mixedRows := by
  have hratio : 0 ≤ (1 / 2 : Rat) ∧ (1 / 2 : Rat) ≤ 1 := by norm_num
  obtain ⟨Q, hQ, hsizes, hrows, -⟩ := exists_truncated_eq_ok mixedRows hratio
  have hfirst : survivors (1 / 2) (mixedRows.row 0) = [⟨5, 1 / 2⟩, ⟨5, 1⟩] := by
    with_unfolding_all rfl
  have hsecond : survivors (1 / 2) (mixedRows.row 1) = [⟨1, 1⟩, ⟨1, -1⟩] := by
    with_unfolding_all rfl
  refine ⟨hratio, Q, hQ, hsizes.trans ?_, ?_, ?_, ?_, ?_⟩
  · with_unfolding_all rfl
  · obtain ⟨factor, hfactor⟩ := (hrows 0).exists_factor
    exact ⟨factor, hfactor.trans (hfirst ▸ rfl)⟩
  · refine ((hrows 0).sum_eq ?_).trans ?_
    · rw [hfirst]
      decide +kernel
    · with_unfolding_all rfl
  · refine ((hrows 1).eq_survivors ?_).trans hsecond
    rw [hsecond]
    decide +kernel
  · obtain ⟨Q', hQ', -, -, hzero⟩ := exists_truncated_eq_ok mixedRows ⟨le_rfl, zero_le_one⟩
    rw [hQ', hzero rfl]

end Truncation

end Multigrid
