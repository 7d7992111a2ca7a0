import Multigrid.Proofs.Interpolation.Gather

/-!
# The formula of extended interpolation

Point `i` is interpolated from the coarse points `l` that it reaches.  With `ā k m` for the
coefficient of row `k` in column `m` if its sign is not the one of the diagonal of row `k`, and zero
otherwise, the coefficients of row `i` are modified by what its strong fine neighbours `k` hand on:

* `â i l = a i l + ∑ k, a i k * ā k l / D k`
* `â i i = a i i + ∑ k, a i k * ā k i / D k + ∑ j, a i j`

where `D k` is the sum of `ā k m` over the reached points `m` and over `i` itself, and `j` stands
for the points that are neither reached nor strong fine neighbours.  The weights are the quotients
`- â i l / â i i`.  A sum whose magnitude is up to `1e-32` gives zero in place of a quotient.

The traversal tells the signs apart by the diagonal of row `i` where it sums up `D k`, and by the
diagonal of row `k` where it hands on.  The formula holds for rows in which both are the same.

## Main definitions

* `Extended.shareSum`, `Extended.redistributed`: `D k`, and what is handed on
* `Extended.formulaWeight`: the weights of the formula

## Main results

* `Extended.map_row_of_prolongator_eq_ok`: the rows of a prolongator, whatever the signs
* `Extended.row_eq_formulaWeight`: the rows that the formula gives
-/

namespace Multigrid

namespace Extended

variable {R : Type} {n : Nat}

/-- The weights in the row of a point that is not coarse. -/
theorem map_row_of_prolongator_eq_ok {G : StrengthGraph Rat n} {labels : Vector Label n}
    {firstOnly : Bool} {given : Option Int} {buffer : RowBuffer Rat n}
    (hdistinct : G.operator.HasDistinctColumns)
    (h : prolongator G labels G.operator.diagonal firstOnly given =
      (.ok buffer : Except (Fault R) (RowBuffer Rat n)))
    {i : Fin n} (hi : labels.get i ≠ .coarse) :
    ((coarseColumns labels buffer).row i).map (fun e => (e.column.val, e.value)) =
      (reachedPoints G labels firstOnly i).map fun l => ((coarseNumbers labels).get l,
        weightFactor G labels (reachSet G labels firstOnly i) i *
          numerator G labels (reachSet G labels firstOnly i) i l) := by
  obtain ⟨rows, hrow, rfl⟩ := exists_rows_of_prolongator_eq_ok h
  obtain ⟨t, hvalid, hstored, hblank, hrows⟩ := exists_table_of_row_eq_ok hi (hrow i)
  rw [map_row_of_rows hrow, hrows, weights_eq hdistinct hi hvalid hstored hblank, List.map_map]
  rfl

section Formula

variable (G : StrengthGraph Rat n) (labels : Vector Label n) (firstOnly : Bool) (i : Fin n)

/-- The sum `D k` over the reached points and point `i`. -/
def shareSum (k : Fin n) : Rat :=
  ∑ m ∈ insert i (reachSet G labels firstOnly i), opposing G k m

/-- What the strong fine neighbours of point `i` hand on to point `j`. -/
def redistributed (j : Fin n) : Rat :=
  ∑ k ∈ strongFine G labels i,
    if |shareSum G labels firstOnly i k| ≤ 1e-32 then 0
    else G.operator.coefficient i k * opposing G k j / shareSum G labels firstOnly i k

/-- The modified coefficient `â i l`. -/
def modifiedCoefficient (l : Fin n) : Rat :=
  G.operator.coefficient i l + redistributed G labels firstOnly i l

/-- The modified diagonal `â i i`. -/
def modifiedDiagonal : Rat :=
  G.operator.coefficient i i + redistributed G labels firstOnly i i +
    ∑ j with j ≠ i ∧ j ∉ reachSet G labels firstOnly i ∧ j ∉ strongFine G labels i,
      G.operator.coefficient i j

/-- The weight of the coarse point `l`. -/
def formulaWeight (l : Fin n) : Rat :=
  if |modifiedDiagonal G labels firstOnly i| ≤ 1e-32 then 0
  else -modifiedCoefficient G labels firstOnly i l / modifiedDiagonal G labels firstOnly i

end Formula

section SameSign

variable {G : StrengthGraph Rat n} {labels : Vector Label n} {firstOnly : Bool} {i : Fin n}

/-- If the diagonals of both rows have one sign, then both tests tell the same signs apart. -/
theorem sharedMass_eq_shareSum {k : Fin n}
    (hsign : 0 ≤ G.operator.coefficient k k ↔ 0 ≤ G.operator.coefficient i i) :
    sharedMass G (reachSet G labels firstOnly i) i k = shareSum G labels firstOnly i k := by
  simp only [sharedMass, shareSum, opposing, opposed, hsign]

theorem handedBy_eq_redistributed (hsign : ∀ k ∈ strongFine G labels i,
      (0 ≤ G.operator.coefficient k k ↔ 0 ≤ G.operator.coefficient i i)) (j : Fin n) :
    handedBy G labels (reachSet G labels firstOnly i) i j =
      redistributed G labels firstOnly i j := by
  apply Finset.sum_congr rfl
  intro k hk
  rw [share, sharedMass_eq_shareSum (hsign k hk), divisionGuard_eq]
  split_ifs with hlt hle hle
  · exact absurd hle (not_le.mpr hlt)
  · rw [div_mul_eq_mul_div]
  · rw [zero_mul]
  · exact absurd (not_lt.mp hlt) hle

/-- If the strong neighbours are coarse or fine, then the strong ones that are not reached are the
fine ones. -/
theorem lumpedMass_eq (hdecided : ∀ k, k ≠ i → G.IsStrong i k →
      labels.get k = .coarse ∨ labels.get k = .fine) :
    lumpedMass G (reachSet G labels firstOnly i) i =
      ∑ j with j ≠ i ∧ j ∉ reachSet G labels firstOnly i ∧ j ∉ strongFine G labels i,
        G.operator.coefficient i j := by
  rw [lumpedMass]
  congr 1
  ext j
  simp only [Finset.mem_filter, Finset.mem_univ, true_and]
  refine and_congr_right fun hne => and_congr_right fun hreach => not_congr ?_
  rw [strongFine, Finset.mem_filter]
  constructor
  · intro hstrong
    -- a strong coarse neighbour would be reached
    have hfine := (hdecided j hne hstrong).resolve_left fun hcoarse =>
      hreach (mem_reachSet.mpr (.direct hstrong hne hcoarse))
    exact ⟨Finset.mem_univ j, hne, hstrong, hfine⟩
  · exact fun h => h.2.2.1

/-- The rows of extended interpolation in exact arithmetic.  Unless a capacity is given there is a
prolongator, and whatever the capacity, the row of a fine point lists the points that it reaches
with the weights of the formula, if its strong neighbours are coarse or fine and the diagonals of
the strong fine ones have the sign of its own. -/
theorem row_eq_formulaWeight (hdistinct : G.operator.HasDistinctColumns)
    (hi : labels.get i = .fine)
    (hdecided : ∀ k, k ≠ i → G.IsStrong i k → labels.get k = .coarse ∨ labels.get k = .fine)
    (hsign : ∀ k ∈ strongFine G labels i,
      (0 ≤ G.operator.coefficient k k ↔ 0 ≤ G.operator.coefficient i i)) :
    (n ≤ 0x8000000000000000 → ∃ buffer,
      prolongator G labels G.operator.diagonal firstOnly none =
        (.ok buffer : Except (Fault R) (RowBuffer Rat n))) ∧
    ∀ given buffer, prolongator G labels G.operator.diagonal firstOnly given =
        (.ok buffer : Except (Fault R) (RowBuffer Rat n)) →
      ((coarseColumns labels buffer).row i).map (fun e => (e.column.val, e.value)) =
        (reachedPoints G labels firstOnly i).map fun l =>
          ((coarseNumbers labels).get l, formulaWeight G labels firstOnly i l) := by
  refine ⟨exists_prolongator_eq_ok G labels G.operator.diagonal firstOnly, ?_⟩
  intro given buffer h
  rw [map_row_of_prolongator_eq_ok hdistinct h (by simp [hi])]
  have hdenominator : denominator G labels (reachSet G labels firstOnly i) i =
      modifiedDiagonal G labels firstOnly i := by
    rw [denominator, lumpedMass_eq hdecided, handedBy_eq_redistributed hsign, modifiedDiagonal]
    ring
  apply List.map_congr_left
  intro l _
  rw [weightFactor, hdenominator, numerator, handedBy_eq_redistributed hsign, divisionGuard_eq,
    formulaWeight, modifiedCoefficient]
  congr 1
  split_ifs with hlt hle hle
  · exact absurd hle (not_le.mpr hlt)
  · ring
  · rw [zero_mul]
  · exact absurd (not_lt.mp hlt) hle

end SameSign

/-- The last point of the chain gets a third of the first one: half of what its neighbour hands on
returns to it. -/
theorem chain_formulaWeight :
    chain.operator.HasDistinctColumns ∧ chainLabels.get 2 = .fine ∧
    (∀ k, k ≠ 2 → chain.IsStrong 2 k →
      chainLabels.get k = .coarse ∨ chainLabels.get k = .fine) ∧
    (∀ k ∈ strongFine chain chainLabels 2,
      (0 ≤ chain.operator.coefficient k k ↔ 0 ≤ chain.operator.coefficient 2 2)) ∧
    ∃ buffer, prolongator chain chainLabels chain.operator.diagonal false none =
        (.ok buffer : Except (Fault Unit) (RowBuffer Rat 3)) ∧
      ((coarseColumns chainLabels buffer).row 2).map (fun e => (e.column.val, e.value)) =
        [(0, 1 / 3)] := by
  have hdistinct : chain.operator.HasDistinctColumns := by decide
  have hdecided : ∀ k, k ≠ 2 → chain.IsStrong 2 k →
      chainLabels.get k = .coarse ∨ chainLabels.get k = .fine := by decide
  have hsign : ∀ k ∈ strongFine chain chainLabels 2,
      (0 ≤ chain.operator.coefficient k k ↔ 0 ≤ chain.operator.coefficient 2 2) := by
    decide +kernel
  obtain ⟨hexists, hrow⟩ :=
    @row_eq_formulaWeight Unit 3 chain chainLabels false 2 hdistinct rfl hdecided hsign
  obtain ⟨buffer, hbuffer⟩ := hexists (by decide)
  refine ⟨hdistinct, rfl, hdecided, hsign, buffer, hbuffer, ?_⟩
  rw [hrow none buffer hbuffer]
  decide +kernel

end Extended

end Multigrid
