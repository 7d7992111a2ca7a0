import Multigrid.Proofs.Interpolation.CompactedRows
import Multigrid.Proofs.Scalar.Comparison
import Multigrid.Proofs.Strength.Relation

/-!
# Counting the entries of direct interpolation

The entries of a row are counted by one test and kept by another one: counted are the strong entries
at an end of the band or beyond one, kept are those that do not lie strictly between the ends.  A
value that is not comparable would be kept without being counted.  A strong entry is below the
threshold of its row, so it is comparable, and with the strong entries of a row the ends of its band
are; on such values the two tests agree.

## Main definitions

* `StrengthGraph.HasComparableMarks`: the strong entries are comparable

## Main results

* `StrengthGraph.hasComparableMarks_ofMatrix`: marks by thresholds
* `Direct.le_self_band`: the ends of a band are comparable
* `Direct.countsKept_of_hasComparableMarks`: the test that counts and the test that keeps
-/

namespace Multigrid

variable {V : Type} {n : Nat} [Arith V]

/-- The strong entries are comparable.  No other entry has to be. -/
def StrengthGraph.HasComparableMarks (G : StrengthGraph V n) : Prop :=
  ∀ i, ∀ c ∈ G.row i, c.strong = true → c.value ≤ c.value

variable [ValueOrder V]

/-- Entries below a threshold are comparable, whatever the values of the operator are. -/
theorem StrengthGraph.hasComparableMarks_ofMatrix (tolerance : V) (A : SparseMatrix V n n) :
    (ofMatrix tolerance A).HasComparableMarks := by
  intro i c hc hstrong
  obtain ⟨-, hlt⟩ := (mem_row_ofMatrix hc).2.mp hstrong
  exact (ValueOrder.le_self_of_lt hlt).1

namespace Direct

variable {G : StrengthGraph V n} {labels : Vector Label n}

variable (labels) in
/-- The ends of the band of a row are comparable if its strong entries are. -/
theorem le_self_band (h : G.HasComparableMarks) (i : Fin n) :
    (band G labels i).lower ≤ (band G labels i).lower ∧
      (band G labels i).upper ≤ (band G labels i).upper := by
  have hzero := ValueOrder.zero_le_zero (V := V)
  rw [band]
  split_ifs
  · exact ⟨hzero, hzero⟩
  · have hvalues : ∀ x ∈ (0 : V) :: (strongCoarse G labels i).map (·.value), x ≤ x := by
      intro x hx
      rcases List.mem_cons.mp hx with rfl | hx
      · exact hzero
      · obtain ⟨c, hc, rfl⟩ := List.mem_map.mp hx
        obtain ⟨hmem, hstrong⟩ := List.mem_filter.mp (List.mem_of_mem_filter hc)
        exact h i c hmem hstrong
    exact ⟨ValueOrder.mul_ratio ((isExtreme_foldl_least _ _).le_self hvalues),
      ValueOrder.mul_ratio ((isExtreme_foldl_greatest _ _).le_self hvalues)⟩

theorem isOutside_eq_not_isInside {band : Band V} {x : V} (hlower : band.lower ≤ band.lower)
    (hupper : band.upper ≤ band.upper) (hx : x ≤ x) : band.isOutside x = !band.isInside x := by
  rw [Band.isOutside, Band.isInside, ← decide_not]
  apply decide_eq_decide.mpr
  rw [not_and_or, ValueOrder.not_lt hlower hx, ValueOrder.not_lt hx hupper]

/-- If strong entries are comparable, the test that counts and the test that keeps are the same.
Other entries need not be comparable: neither of the tests looks at them. -/
theorem countsKept_of_hasComparableMarks (labels : Vector Label n) (h : G.HasComparableMarks) :
    CountsKept G labels := by
  intro i hi
  obtain ⟨hlower, hupper⟩ := le_self_band labels h i
  rw [strongCoarse, StrengthGraph.strongRow, List.countP_filter, List.countP_filter]
  apply List.countP_congr
  intro c hc
  cases hstrong : c.strong with
  | false => simp [isKept, hstrong]
  | true => simp [isOutside_eq_not_isInside hlower hupper (h i c hc hstrong), isKept, hstrong, hi,
      and_comm]

/-- In exact arithmetic all entries are comparable. -/
theorem countsKept_exact (G : StrengthGraph Rat n) (labels : Vector Label n) :
    CountsKept G labels :=
  countsKept_of_hasComparableMarks labels fun _ c _ _ => le_refl (α := Rat) c.value

end Direct

end Multigrid
