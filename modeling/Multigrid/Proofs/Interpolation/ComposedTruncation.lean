import Multigrid.Proofs.Interpolation.TruncatedRows

/-!
# One truncation after another

A truncated row is a multiplied part of the row, and its largest magnitude is that of the row times
the magnitude of the factor.  A second truncation by a larger ratio therefore finds the survivors
that it would find in the row itself, as long as the factor is not zero.  The factor of the second
truncation makes up for the first one: together they take the sum of these survivors to the sum of
the row.  That costs three sums which are divided by, and a sum of the row which is not zero.

A second truncation by the same ratio costs nothing.  Every entry that survived survives again,
multiplied by whatever factor, and a row of which every entry survives stays as it is.

## Main results

* `Truncation.survivors_survivors`, `Truncation.survivors_scaled`: survivors among survivors, and
  among multiplied entries
* `Truncation.row_row_self`, `Truncation.row_row`: a row that is truncated twice
* `Truncation.truncated_twice`: a matrix that is truncated twice
-/

namespace Multigrid

namespace Truncation

variable {m n : Nat} {ratio ratio' factor : Rat} {entries : List (Entry n Rat)}

/-! ## Survivors of survivors -/

theorem largest_survivors (hratio : ratio ≤ 1) :
    largest (survivors ratio entries) = largest entries := by
  apply le_antisymm
  · rcases exists_largest_or_eq_zero (survivors ratio entries) with ⟨e, he, heq⟩ | hzero
    · exact heq ▸ le_largest (List.mem_of_mem_filter he)
    · exact hzero.trans_le largest_nonneg
  · by_cases h : entries = []
    · rw [h]
      exact largest_nonneg
    · -- the largest entry is among the survivors
      obtain ⟨e, he, heq⟩ := exists_survivor hratio h
      exact heq ▸ le_largest he

/-- What reaches a part of the largest magnitude reaches every smaller part. -/
theorem survivors_survivors (hle : ratio ≤ ratio') (hratio : ratio ≤ 1) :
    survivors ratio' (survivors ratio entries) = survivors ratio' entries := by
  have hpart : ratio * largest entries ≤ ratio' * largest entries :=
    mul_le_mul_of_nonneg_right hle largest_nonneg
  rw [survivors, largest_survivors hratio, survivors, List.filter_filter, survivors]
  refine List.filter_congr fun e _ => ?_
  rw [Bool.and_eq_left_iff_imp]
  exact fun hreach => decide_eq_true (hpart.trans (of_decide_eq_true hreach))

/-! ## Survivors of multiplied entries -/

theorem scaled_scaled (factor factor' : Rat) (entries : List (Entry n Rat)) :
    scaled factor' (scaled factor entries) = scaled (factor * factor') entries := by
  rw [scaled, scaled, List.map_map, scaled]
  refine List.map_congr_left fun e _ => ?_
  rw [Function.comp_apply, mul_assoc]

theorem largest_scaled (factor : Rat) (entries : List (Entry n Rat)) :
    largest (scaled factor entries) = largest entries * |factor| := by
  induction entries with
  | nil => exact (zero_mul _).symm
  | cons e entries ih =>
    rw [scaled, List.map_cons, largest_cons, ← scaled, ih, largest_cons, abs_mul,
      max_mul_of_nonneg _ _ (abs_nonneg factor)]

/-- Entries that all survive do so after they are multiplied by a factor, which may be zero. -/
theorem survivors_scaled_of_eq_self (h : survivors ratio entries = entries) :
    survivors ratio (scaled factor entries) = scaled factor entries := by
  refine List.filter_eq_self.mpr fun e he => decide_eq_true ?_
  obtain ⟨e, hmem, rfl⟩ := List.mem_map.mp he
  -- the test is multiplied by the magnitude of the factor, which may turn it into `0 ≤ 0`
  have hreach : ratio * largest entries ≤ |e.value| :=
    of_decide_eq_true (List.filter_eq_self.mp h e hmem)
  rw [largest_scaled, abs_mul, ← mul_assoc]
  exact mul_le_mul_of_nonneg_right hreach (abs_nonneg factor)

/-- The same entries survive after all are multiplied by a factor that is not zero. -/
theorem survivors_scaled (hfactor : factor ≠ 0) :
    survivors ratio (scaled factor entries) = scaled factor (survivors ratio entries) := by
  rw [survivors, largest_scaled, scaled, List.filter_map, scaled, survivors]
  refine congrArg _ (List.filter_congr fun e _ => decide_eq_decide.mpr ?_)
  rw [abs_mul, ← mul_assoc]
  exact mul_le_mul_iff_of_pos_right (abs_pos.mpr hfactor)

/-! ## Truncated rows -/

/-- Truncating a row once more by the same ratio changes nothing, whatever its sums are. -/
theorem row_row_self (hratio : ratio ≤ 1) (entries : List (Entry n Rat)) :
    row ratio (row ratio entries) = row ratio entries := by
  apply row_eq_self
  rw [row_eq_scaled]
  exact survivors_scaled_of_eq_self (survivors_survivors le_rfl hratio)

/-- Truncating a row by a larger ratio after a smaller one, if the sum of the row is not zero and no
sum of survivors counts as zero. -/
theorem row_row (hle : ratio ≤ ratio') (hratio : ratio ≤ 1) (hsum : (valuesOf entries).sum ≠ 0)
    (hfirst : exceedsGuard (valuesOf (survivors ratio entries)).sum)
    (hdirect : exceedsGuard (valuesOf (survivors ratio' entries)).sum)
    (hsecond : exceedsGuard (valuesOf (survivors ratio' (row ratio entries))).sum) :
    row ratio' (row ratio entries) = row ratio' entries := by
  obtain ⟨factor, hfactor⟩ : ∃ factor, scale ratio entries = factor := ⟨_, rfl⟩
  have hscale : factor = (valuesOf entries).sum / (valuesOf (survivors ratio entries)).sum := by
    rw [← hfactor, scale_eq, if_pos hfirst]
  have hne : factor ≠ 0 := hscale ▸ div_ne_zero hsum (ne_zero_of_exceedsGuard hfirst)
  have hrow : row ratio entries = scaled factor (survivors ratio entries) :=
    hfactor ▸ row_eq_scaled ratio entries
  have hsurvivors : survivors ratio' (row ratio entries) =
      scaled factor (survivors ratio' entries) := by
    rw [hrow, survivors_scaled hne, survivors_survivors hle hratio]
  have hkept : (valuesOf (row ratio entries)).sum = (valuesOf entries).sum :=
    (isTruncated_row hratio entries).sum_eq hfirst
  -- the second factor divides by the first one, which it finds in the survivors
  have hscale' : scale ratio' (row ratio entries) =
      (valuesOf entries).sum / ((valuesOf (survivors ratio' entries)).sum * factor) := by
    rw [scale_eq, if_pos hsecond, hkept, hsurvivors, sum_valuesOf_scaled]
  calc row ratio' (row ratio entries)
      = scaled (factor * scale ratio' (row ratio entries)) (survivors ratio' entries) := by
        rw [row_eq_scaled ratio', hsurvivors, scaled_scaled]
    _ = scaled (scale ratio' entries) (survivors ratio' entries) := by
        rw [hscale', scale_eq ratio' entries, if_pos hdirect, mul_comm _ factor,
          ← mul_div_assoc, mul_div_mul_left _ _ hne]
    _ = row ratio' entries := (row_eq_scaled ratio' entries).symm

/-! ## Truncated matrices -/

/-- Truncation by a ratio and then by another one that is not smaller leaves of a row what the
second truncation leaves alone, if the sum of the row is not zero and the sums of the survivors do
not count as zero.  Twice the same ratio is as good as once, for all rows. -/
theorem truncated_twice (P : SparseMatrix Rat m n) (hpos : 0 ≤ ratio) (hle : ratio ≤ ratio')
    (hone : ratio' ≤ 1) :
    ∃ once twice direct : SparseMatrix Rat m n, truncated P ratio m = .ok once ∧
      truncated once ratio' m = .ok twice ∧ truncated P ratio' m = .ok direct ∧
      (∀ i, (valuesOf (P.row i)).sum ≠ 0 →
        exceedsGuard (valuesOf (survivors ratio (P.row i))).sum →
        exceedsGuard (valuesOf (survivors ratio' (P.row i))).sum →
        exceedsGuard (valuesOf (survivors ratio' (once.row i))).sum →
        twice.row i = direct.row i) ∧
      (ratio = ratio' → twice = direct) := by
  have hratio : ratio ≤ 1 := hle.trans hone
  have hpos' : 0 ≤ ratio' := hpos.trans hle
  refine ⟨.ofRows (rows P ratio), _, _, truncated_eq_ok P ⟨hpos, hratio⟩,
    truncated_eq_ok _ ⟨hpos', hone⟩, truncated_eq_ok P ⟨hpos', hone⟩, fun i => ?_, ?_⟩
  · simp only [SparseMatrix.row_ofRows, rows]
    exact row_row hle hratio
  · rintro rfl
    apply SparseMatrix.eq_of_row_eq
    intro i
    simp only [SparseMatrix.row_ofRows, rows]
    exact row_row_self hratio (P.row i)

/-- A row that both ratios drop an entry of, and a row whose survivors cancel out. -/
def stepped : SparseMatrix Rat 2 3 :=
  .ofDense !![3 / 8, 1, -1 / 8; 1 / 8, 1, -1]

/-- In one step or in two, the first row is left its largest entry, times `5 / 4`. -/
theorem truncated_twice_stepped :
    (0 ≤ (1 / 4 : Rat) ∧ (1 / 4 : Rat) ≤ 1 / 2 ∧ (1 / 2 : Rat) ≤ 1) ∧
    (∃ once twice direct : SparseMatrix Rat 2 3, truncated stepped (1 / 4 : Rat) 2 = .ok once ∧
      truncated once (1 / 2 : Rat) 2 = .ok twice ∧
      truncated stepped (1 / 2 : Rat) 2 = .ok direct ∧
      twice.row 0 = direct.row 0 ∧ direct.row 0 = [⟨1, 5 / 4⟩]) ∧
    ∃ once : SparseMatrix Rat 2 3, truncated stepped (1 / 4 : Rat) 2 = .ok once ∧
      truncated once (1 / 4 : Rat) 2 = .ok once ∧ once.row 1 = [⟨1, 1⟩, ⟨2, -1⟩] := by
  have hratios : 0 ≤ (1 / 4 : Rat) ∧ (1 / 4 : Rat) ≤ 1 / 2 ∧ (1 / 2 : Rat) ≤ 1 := by norm_num
  have hquarter : truncated stepped (1 / 4 : Rat) 2 = .ok (.ofRows (rows stepped (1 / 4 : Rat))) :=
    truncated_eq_ok stepped (by norm_num)
  refine ⟨hratios, ?_, ?_⟩
  · obtain ⟨once, twice, direct, hfirst, hsecond, hdirect, hrows, -⟩ :=
      truncated_twice stepped hratios.1 hratios.2.1 hratios.2.2
    obtain rfl := Except.ok.inj (hquarter.symm.trans hfirst)
    have hhalf : truncated stepped (1 / 2 : Rat) 2 =
        .ok (.ofRows (rows stepped (1 / 2 : Rat))) :=
      truncated_eq_ok stepped (by norm_num)
    obtain rfl := Except.ok.inj (hhalf.symm.trans hdirect)
    refine ⟨_, twice, _, hfirst, hsecond, hdirect, hrows 0 ?_ ?_ ?_ ?_, ?_⟩
    · decide +kernel
    · decide +kernel
    · decide +kernel
    · decide +kernel
    · with_unfolding_all rfl
  · obtain ⟨once, twice, direct, hfirst, hsecond, hdirect, -, hsame⟩ :=
      truncated_twice stepped hratios.1 le_rfl (hratios.2.1.trans hratios.2.2)
    obtain rfl := Except.ok.inj (hfirst.symm.trans hdirect)
    obtain rfl := Except.ok.inj (hquarter.symm.trans hfirst)
    refine ⟨_, hfirst, hsame rfl ▸ hsecond, ?_⟩
    with_unfolding_all rfl

end Truncation

end Multigrid
