import Multigrid.Proofs.Interpolation.ExtendedBalance

/-!
# Extended interpolation of constants

A vector of equal values is interpolated without error in a row whose weights sum up to one.  For an
operator whose row sums are zero this asks for one thing only: what a strong fine neighbour `k`
hands on has to be what was taken from it, the coefficient `a i k`.

What neighbour `k` hands on is spread in proportion to those entries of its row that oppose its own
diagonal, but it is divided by the sum of the entries that oppose the diagonal of row `i`.  If the
two diagonals have one sign, these are the same entries, and `a i k` arrives whole.  Otherwise the
neighbour hands on `a i k` times the quotient of the two sums, and the weights of the row sum up to
one if and only if these products sum up to the same value as the coefficients.

## Main results

* `Extended.sum_row_eq_one_iff`: the rows of a prolongator that interpolate constants
* `Extended.sum_row_twoSigned`: a row that does not
-/

namespace Multigrid

namespace Extended

variable {R : Type} {n : Nat}

/-! ## Rows that interpolate constants -/

section Constants

variable {G : StrengthGraph Rat n} {labels : Vector Label n} {firstOnly : Bool} {i : Fin n}

/-- The values in the row of a point that is not coarse. -/
theorem valuesOf_row_eq_reachedWeights (hdistinct : G.operator.HasDistinctColumns)
    (hi : labels.get i ≠ .coarse) {given : Option Int} {buffer : RowBuffer Rat n}
    (h : prolongator G labels G.operator.diagonal firstOnly given =
      (.ok buffer : Except (Fault R) (RowBuffer Rat n))) :
    valuesOf ((coarseColumns labels buffer).row i) = reachedWeights G labels i firstOnly := by
  have hvalues := congrArg (List.map Prod.snd) (map_row_of_prolongator_eq_ok hdistinct h hi)
  rw [List.map_map, List.map_map] at hvalues
  exact hvalues

theorem sum_reachedWeights_eq_one_iff (hi : labels.get i = .fine)
    (hdecided : ∀ k, k ≠ i → G.IsStrong i k → labels.get k = .coarse ∨ labels.get k = .fine)
    (hzero : ∑ j, G.operator.coefficient i j = 0)
    (hguard : divisionGuard < |denominator G labels (reachSet G labels firstOnly i) i|) :
    (reachedWeights G labels i firstOnly).sum = 1 ↔
      ∑ k ∈ strongFine G labels i,
          share G (reachSet G labels firstOnly i) i k (G.operator.coefficient i k) *
            shareSum G labels firstOnly i k =
        ∑ k ∈ strongFine G labels i, G.operator.coefficient i k := by
  have hnot : i ∉ reachSet G labels firstOnly i := not_mem_reachSet (by simp [hi])
  have hbalance := sum_coefficient_add_sum_handed hnot coarse_of_mem_reachSet
    (fine_of_not_mem_reachSet hdecided)
  have hne : denominator G labels (reachSet G labels firstOnly i) i ≠ 0 :=
    abs_pos.mp (divisionGuard_pos.trans hguard)
  rw [sum_reachedWeights_eq, weightFactor, if_pos hguard, div_mul_eq_mul_div,
    div_eq_one_iff_eq hne]
  simp only [shareSum]
  rw [hzero] at hbalance
  constructor
  · intro h
    linarith
  · intro h
    linarith

/-- The row of a fine point in exact arithmetic, for an operator that stores no column twice, if its
coefficients sum up to zero, its strong neighbours are coarse or fine, and no sum counts as zero.
Its weights sum up to one if and only if its strong fine neighbours hand on as much as was taken
from them; they do so if their diagonals have the sign of its own. -/
theorem sum_row_eq_one_iff (hdistinct : G.operator.HasDistinctColumns)
    (hi : labels.get i = .fine)
    (hdecided : ∀ k, k ≠ i → G.IsStrong i k → labels.get k = .coarse ∨ labels.get k = .fine)
    (hzero : ∑ j, G.operator.coefficient i j = 0)
    (hshared : ∀ k ∈ strongFine G labels i,
      divisionGuard < |sharedMass G (reachSet G labels firstOnly i) i k|)
    (hguard : divisionGuard < |denominator G labels (reachSet G labels firstOnly i) i|)
    {given : Option Int} {buffer : RowBuffer Rat n}
    (h : prolongator G labels G.operator.diagonal firstOnly given =
      (.ok buffer : Except (Fault R) (RowBuffer Rat n))) :
    ((valuesOf ((coarseColumns labels buffer).row i)).sum = 1 ↔
      ∑ k ∈ strongFine G labels i, G.operator.coefficient i k *
          (shareSum G labels firstOnly i k /
            sharedMass G (reachSet G labels firstOnly i) i k) =
        ∑ k ∈ strongFine G labels i, G.operator.coefficient i k) ∧
    ((∀ k ∈ strongFine G labels i,
        (0 ≤ G.operator.coefficient k k ↔ 0 ≤ G.operator.coefficient i i)) →
      (valuesOf ((coarseColumns labels buffer).row i)).sum = 1) := by
  have hiff : (valuesOf ((coarseColumns labels buffer).row i)).sum = 1 ↔
      ∑ k ∈ strongFine G labels i, G.operator.coefficient i k *
          (shareSum G labels firstOnly i k /
            sharedMass G (reachSet G labels firstOnly i) i k) =
        ∑ k ∈ strongFine G labels i, G.operator.coefficient i k := by
    have hhanded : ∀ k ∈ strongFine G labels i,
        share G (reachSet G labels firstOnly i) i k (G.operator.coefficient i k) *
            shareSum G labels firstOnly i k =
          G.operator.coefficient i k * (shareSum G labels firstOnly i k /
            sharedMass G (reachSet G labels firstOnly i) i k) := by
      intro k hk
      rw [share, if_pos (hshared k hk), div_mul_eq_mul_div, mul_div_assoc]
    rw [valuesOf_row_eq_reachedWeights hdistinct (by simp [hi]) h,
      sum_reachedWeights_eq_one_iff hi hdecided hzero hguard, Finset.sum_congr rfl hhanded]
  refine ⟨hiff, fun hsign => hiff.mpr (Finset.sum_congr rfl fun k hk => ?_)⟩
  -- with one sign the two sums are the same
  have hne : sharedMass G (reachSet G labels firstOnly i) i k ≠ 0 :=
    abs_pos.mp (divisionGuard_pos.trans (hshared k hk))
  rw [← sharedMass_eq_shareSum (hsign k hk), div_self hne, mul_one]

end Constants

/-- Three points in a row.  The row sums are zero, and all diagonals have one sign. -/
def freePath : StrengthGraph Rat 3 :=
  .ofMatrix (1 / 4) (.ofDense !![1, -1, 0; -1, 2, -1; 0, -1, 1])

/-- By way of its neighbour, the last point of the path gets all of the first one. -/
theorem sum_row_freePath :
    freePath.operator.HasDistinctColumns ∧ chainLabels.get 2 = .fine ∧
    (∀ k, k ≠ 2 → freePath.IsStrong 2 k →
      chainLabels.get k = .coarse ∨ chainLabels.get k = .fine) ∧
    ∑ j, freePath.operator.coefficient 2 j = 0 ∧
    (∀ k ∈ strongFine freePath chainLabels 2,
      divisionGuard < |sharedMass freePath (reachSet freePath chainLabels false 2) 2 k|) ∧
    divisionGuard < |denominator freePath chainLabels (reachSet freePath chainLabels false 2) 2| ∧
    ∃ buffer, prolongator freePath chainLabels freePath.operator.diagonal false none =
        (.ok buffer : Except (Fault Unit) (RowBuffer Rat 3)) ∧
      (valuesOf ((coarseColumns chainLabels buffer).row 2)).sum = 1 := by
  have hdistinct : freePath.operator.HasDistinctColumns := by decide +kernel
  have hdecided : ∀ k, k ≠ 2 → freePath.IsStrong 2 k →
      chainLabels.get k = .coarse ∨ chainLabels.get k = .fine := by decide +kernel
  have hzero : ∑ j, freePath.operator.coefficient 2 j = 0 := by decide +kernel
  have hshared : ∀ k ∈ strongFine freePath chainLabels 2,
      divisionGuard < |sharedMass freePath (reachSet freePath chainLabels false 2) 2 k| := by
    decide +kernel
  have hguard : divisionGuard <
      |denominator freePath chainLabels (reachSet freePath chainLabels false 2) 2| := by
    decide +kernel
  obtain ⟨buffer, hbuffer⟩ := exists_prolongator_eq_ok (R := Unit) freePath chainLabels
    freePath.operator.diagonal false (by decide)
  refine ⟨hdistinct, rfl, hdecided, hzero, hshared, hguard, buffer, hbuffer, ?_⟩
  obtain ⟨-, hone⟩ := sum_row_eq_one_iff hdistinct rfl hdecided hzero hshared hguard hbuffer
  exact hone (by decide +kernel)

/-- Three points whose row sums are zero.  The diagonal of the first one is negative, and the one of
its strong neighbour is not. -/
def twoSigned : StrengthGraph Rat 3 :=
  .ofMatrix (1 / 2) (.ofDense !![-1, -1, 2; 1, 1, -2; 0, -1, 1])

/-- Only the last point is coarse. -/
def twoSignedLabels : Vector Label 3 := #v[.fine, .fine, .coarse]

/-- The neighbour of the first point has the sum 1 by the sign of the one diagonal and -2 by the
sign of the other, so it hands on minus twice what was taken from it, and the only weight of the
first point is 4. -/
theorem sum_row_twoSigned :
    twoSigned.operator.HasDistinctColumns ∧
    (∀ i, ∑ j, twoSigned.operator.coefficient i j = 0) ∧
    (∀ i, twoSignedLabels.get i = .coarse ∨ twoSignedLabels.get i = .fine) ∧
    twoSignedLabels.get 0 = .fine ∧
    (∀ k ∈ strongFine twoSigned twoSignedLabels 0,
      divisionGuard < |sharedMass twoSigned (reachSet twoSigned twoSignedLabels false 0) 0 k|) ∧
    divisionGuard <
      |denominator twoSigned twoSignedLabels (reachSet twoSigned twoSignedLabels false 0) 0| ∧
    ∃ buffer, prolongator twoSigned twoSignedLabels twoSigned.operator.diagonal false none =
        (.ok buffer : Except (Fault Unit) (RowBuffer Rat 3)) ∧
      valuesOf ((coarseColumns twoSignedLabels buffer).row 0) = [4] ∧
      (valuesOf ((coarseColumns twoSignedLabels buffer).row 0)).sum ≠ 1 := by
  have hdistinct : twoSigned.operator.HasDistinctColumns := by decide +kernel
  obtain ⟨buffer, hbuffer⟩ := exists_prolongator_eq_ok (R := Unit) twoSigned twoSignedLabels
    twoSigned.operator.diagonal false (by decide)
  have hvalues : valuesOf ((coarseColumns twoSignedLabels buffer).row 0) = [4] := by
    rw [valuesOf_row_eq_reachedWeights hdistinct (by decide) hbuffer]
    decide +kernel
  refine ⟨hdistinct, by decide +kernel, by decide, rfl, by decide +kernel, by decide +kernel,
    buffer, hbuffer, hvalues, ?_⟩
  rw [hvalues]
  decide +kernel

end Extended

end Multigrid
