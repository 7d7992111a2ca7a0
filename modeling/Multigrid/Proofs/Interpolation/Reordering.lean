import Multigrid.Proofs.Hierarchy.Outcome
import Multigrid.Proofs.Interpolation.Counting
import Multigrid.Proofs.Interpolation.DirectBalance
import Multigrid.Proofs.Interpolation.ExtendedBalance
import Multigrid.Proofs.Interpolation.Formula
import Multigrid.Proofs.Interpolation.Subconvex
import Multigrid.Proofs.Sparse.Product
import Multigrid.Proofs.Strength.Reordering

/-!
# Interpolation from reordered rows

In exact arithmetic the sums of direct interpolation do not depend on the order in which they are
taken, so the weights of a reordered row are the weights of the row, in the order of its entries.
Truncation looks at a row as a whole and keeps that order.

The weights of extended interpolation are functions of the coefficients and of the strong relation.
They are listed by the numbers of their points, so nothing changes at all.  That needs neighbours
that hand on all of their coarse points: which of them is stored first is a matter of the order.

## Main results

* `Direct.rows_perm`: the rows of direct interpolation
* `Extended.coarseColumns_reordered`: the prolongator of extended interpolation
* `isReordered_interpolated`: the prolongators of both schemes
* `Truncation.isReordered_rows`: truncated rows
-/

namespace Multigrid

variable {n : Nat}

/-- In exact arithmetic there is only one zero. -/
theorem eq_of_alike {a b : Rat} (h : Arith.Alike a b) : a = b := by
  rcases h with ⟨ha, -⟩ | ⟨hab, hba⟩
  · exact absurd (le_refl a) ha
  · exact le_antisymm hab hba

theorem foldl_least_eq_of_perm {items items' : List Rat} (h : items.Perm items') :
    items'.foldl Arith.least 0 = items.foldl Arith.least 0 :=
  eq_of_alike ((isExtreme_foldl_least items' 0).alike (.inl rfl) (isExtreme_foldl_least items 0)
    fun x => by rw [List.mem_cons, List.mem_cons, h.mem_iff])

theorem foldl_greatest_eq_of_perm {items items' : List Rat} (h : items.Perm items') :
    items'.foldl Arith.greatest 0 = items.foldl Arith.greatest 0 :=
  eq_of_alike ((isExtreme_foldl_greatest items' 0).alike (.inr rfl)
    (isExtreme_foldl_greatest items 0) fun x => by rw [List.mem_cons, List.mem_cons, h.mem_iff])

theorem SparseMatrix.IsReordered.coefficient_eq {m : Nat} {A B : SparseMatrix Rat m n}
    (h : A.IsReordered B) (i : Fin m) (j : Fin n) : B.coefficient i j = A.coefficient i j :=
  (coefficientOf_of_perm (h i) j).symm

theorem SparseMatrix.IsReordered.coefficients_eq {m : Nat} {A B : SparseMatrix Rat m n}
    (h : A.IsReordered B) : B.coefficients = A.coefficients := by
  ext i j
  exact h.coefficient_eq i j

theorem StrengthGraph.IsReordered.operator {α : Type} {G H : StrengthGraph α n}
    (h : G.IsReordered H) : G.operator.IsReordered H.operator := by
  intro i
  rw [row_operator, row_operator]
  exact (h i).map _

variable {G H : StrengthGraph Rat n} {labels : Vector Label n}

/-! ## Direct interpolation -/

namespace Direct

section Rows

variable (h : G.IsReordered H)

include h

theorem band_reordered (i : Fin n) : band H labels i = band G labels i := by
  have hperm : ((strongCoarse G labels i).map (·.value)).Perm
      ((strongCoarse H labels i).map (·.value)) := (((h i).filter _).filter _).map _
  rw [band, band]
  simp only [foldl_least_eq_of_perm hperm, foldl_greatest_eq_of_perm hperm]

theorem mass_reordered (i : Fin n) (hasSign isInner : Rat → Bool) :
    mass H labels i hasSign isInner = mass G labels i hasSign isInner := by
  have hall := (h i).filter fun c => c.column ≠ i && hasSign c.value
  have hcarried := hall.filter fun c => c.strong && labels.get c.column = .coarse
  have hdropped := hcarried.filter fun c => isInner c.value
  simp only [mass, roundedSum_eq, (hall.map _).sum_eq, (hcarried.map _).sum_eq,
    (hdropped.map _).sum_eq]

variable (hG : G.operator.HasDistinctColumns)

include hG

theorem factors_reordered (band : Band Rat) (i : Fin n) :
    factors H labels band i = factors G labels band i := by
  simp only [factors, mass_reordered h, h.operator.lastDiagonal?_eq hG]

/-- The rows of direct interpolation have the order of the rows of the operator. -/
theorem rows_perm (i : Fin n) : (rows G labels i).Perm (rows H labels i) := by
  rw [rows, rows, row, row, band_reordered h]
  split_ifs
  · exact .refl _
  · rw [weights, weights, factors_reordered h hG]
    exact ((h i).filter _).map _

end Rows

end Direct

/-! ## Extended interpolation -/

namespace Extended

theorem handsOn_false_iff {α : Type} {G : StrengthGraph α n} {k l : Fin n} :
    HandsOn G labels false k l ↔ G.IsStrong k l ∧ labels.get l = .coarse := by
  constructor
  · rintro ⟨before, c, after, hrow, hstrong, rfl, hcoarse, -⟩
    exact ⟨⟨c, by simp [hrow], hstrong, rfl⟩, hcoarse⟩
  · rintro ⟨⟨c, hc, hstrong, rfl⟩, hcoarse⟩
    obtain ⟨before, after, hrow⟩ := List.append_of_mem hc
    exact ⟨before, c, after, hrow, hstrong, rfl, hcoarse, by simp⟩

section Rows

variable (h : G.IsReordered H)

include h

theorem handsOn_reordered (k l : Fin n) :
    HandsOn H labels false k l ↔ HandsOn G labels false k l := by
  rw [handsOn_false_iff, handsOn_false_iff, h.isStrong_iff]

theorem reaches_reordered (i l : Fin n) :
    Reaches H labels false i l ↔ Reaches G labels false i l := by
  constructor
  · rintro (⟨hil, hne, hl⟩ | ⟨hik, hne, hk, hkl⟩)
    · exact .direct ((h.isStrong_iff _ _).mp hil) hne hl
    · exact .handedOn ((h.isStrong_iff _ _).mp hik) hne hk ((handsOn_reordered h _ _).mp hkl)
  · rintro (⟨hil, hne, hl⟩ | ⟨hik, hne, hk, hkl⟩)
    · exact .direct ((h.isStrong_iff _ _).mpr hil) hne hl
    · exact .handedOn ((h.isStrong_iff _ _).mpr hik) hne hk ((handsOn_reordered h _ _).mpr hkl)

theorem reachedPoints_reordered (i : Fin n) :
    reachedPoints H labels false i = reachedPoints G labels false i := by
  apply List.filter_congr
  intro l _
  rw [Bool.eq_iff_iff, List.contains_iff_mem, List.contains_iff_mem, mem_reached, mem_reached,
    reaches_reordered h]

theorem reachSet_reordered (i : Fin n) : reachSet H labels false i = reachSet G labels false i := by
  rw [reachSet, reachSet, reachedPoints_reordered h]

theorem strongFine_reordered (i : Fin n) : strongFine H labels i = strongFine G labels i := by
  ext k
  rw [mem_strongFine, mem_strongFine, h.isStrong_iff]

variable (points : Finset (Fin n))

theorem handedBy_reordered (i j : Fin n) :
    handedBy H labels points i j = handedBy G labels points i j := by
  have hmass (k : Fin n) : sharedMass H points i k = sharedMass G points i k := by
    simp only [sharedMass, h.operator.coefficient_eq]
  rw [handedBy, handedBy, strongFine_reordered h]
  simp only [share, hmass, opposing, h.operator.coefficient_eq]

theorem numerator_reordered (i l : Fin n) :
    numerator H labels points i l = numerator G labels points i l := by
  rw [numerator, numerator, handedBy_reordered h, h.operator.coefficient_eq]

theorem lumpedMass_reordered (i : Fin n) : lumpedMass H points i = lumpedMass G points i := by
  unfold lumpedMass
  refine Finset.sum_congr (Finset.filter_congr fun j _ => ?_) fun j _ => ?_
  · rw [h.isStrong_iff]
  · exact h.operator.coefficient_eq i j

theorem weightFactor_reordered (i : Fin n) :
    weightFactor H labels points i = weightFactor G labels points i := by
  have hdenominator : denominator H labels points i = denominator G labels points i := by
    rw [denominator, denominator, lumpedMass_reordered h, handedBy_reordered h,
      h.operator.coefficient_eq]
  rw [weightFactor, weightFactor, hdenominator]

variable {R : Type} (hG : G.operator.HasDistinctColumns) {given given' : Option Int}
  {buffer buffer' : RowBuffer Rat n}

include hG in
/-- The prolongator of extended interpolation does not change, and neither does the order of its
entries. -/
theorem coarseColumns_reordered
    (hbuffer : prolongator G labels G.operator.diagonal false given =
      (.ok buffer : Except (Fault R) (RowBuffer Rat n)))
    (hbuffer' : prolongator H labels H.operator.diagonal false given' =
      (.ok buffer' : Except (Fault R) (RowBuffer Rat n))) :
    coarseColumns labels buffer' = coarseColumns labels buffer := by
  apply SparseMatrix.eq_of_row_eq
  intro i
  -- a coarse point has its unit row, any other one the weights of the points that it reaches
  by_cases hi : labels.get i = .coarse
  · rw [(hasReachedColumns_of_prolongator_eq_ok hbuffer).unit hi,
      (hasReachedColumns_of_prolongator_eq_ok hbuffer').unit hi]
  · apply List.map_injective_iff.mpr entry_injective
    rw [map_row_of_prolongator_eq_ok hG hbuffer hi,
      map_row_of_prolongator_eq_ok (h.operator.hasDistinctColumns hG) hbuffer' hi]
    simp only [reachedPoints_reordered h, reachSet_reordered h, numerator_reordered h,
      weightFactor_reordered h]

end Rows

end Extended

/-! ## Both schemes -/

/-- The prolongators of a graph and of a graph with reordered rows.  For extended interpolation they
are equal. -/
theorem isReordered_interpolated (h : G.IsReordered H) (hG : G.operator.HasDistinctColumns)
    {p : Parameters Rat} (hfirst : p.firstOnly = false) {buffer buffer' : RowBuffer Rat n}
    (hbuffer : interpolated G labels G.operator.diagonal p = .ok buffer)
    (hbuffer' : interpolated H labels H.operator.diagonal p = .ok buffer') :
    (coarseColumns labels buffer).IsReordered (coarseColumns labels buffer') ∧
      (p.scheme = .extended → coarseColumns labels buffer' = coarseColumns labels buffer) := by
  unfold interpolated at hbuffer hbuffer'
  cases hscheme : p.scheme with
  | direct =>
    simp only [hscheme, Direct.prolongator_eq_ok (Direct.countsKept_exact _ labels)]
      at hbuffer hbuffer'
    cases hbuffer
    cases hbuffer'
    refine ⟨fun i => ?_, Scheme.noConfusion⟩
    rw [← List.map_perm_map_iff entry_injective, Direct.map_row_coarseColumns_rows,
      Direct.map_row_coarseColumns_rows]
    exact (Direct.rows_perm h hG i).map _
  | extended =>
    simp only [hscheme, hfirst] at hbuffer hbuffer'
    obtain ⟨given, -, hbuffer⟩ := exists_of_bind_eq_ok hbuffer
    obtain ⟨given', -, hbuffer'⟩ := exists_of_bind_eq_ok hbuffer'
    have heq := Extended.coarseColumns_reordered h hG hbuffer hbuffer'
    exact ⟨fun i => by rw [heq], fun _ => heq⟩

/-! ## Truncation -/

namespace Truncation

variable {ratio : Rat} {entries entries' : List (Entry n Rat)}

theorem threshold_eq_of_perm (h : entries.Perm entries') :
    threshold ratio entries' = threshold ratio entries := by
  have hfold (entries : List (Entry n Rat)) : threshold ratio entries =
      ((entries.map fun e => Arith.magnitude e.value).foldl Arith.greatest 0) * ratio := by
    rw [List.foldl_map]
    rfl
  rw [hfold, hfold, foldl_greatest_eq_of_perm (h.map _)]

theorem kept_perm (h : entries.Perm entries') :
    (kept ratio entries).Perm (kept ratio entries') := by
  simp only [kept, threshold_eq_of_perm h]
  exact h.filter _

theorem rowSum_eq_of_perm (h : entries.Perm entries') :
    (rowSum entries' : Rat) = rowSum entries := by
  rw [rowSum_eq, rowSum_eq]
  exact (h.map _).sum_eq.symm

theorem row_perm (h : entries.Perm entries') : (row ratio entries).Perm (row ratio entries') := by
  -- the factor is a quotient of sums, so it belongs to the row as a whole
  have hscale : scale ratio entries' = scale ratio entries := by
    simp only [scale, rowSum_eq_of_perm h, rowSum_eq_of_perm (kept_perm h)]
  simp only [row, hscale]
  exact (kept_perm h).map _

/-- Truncated rows have the order of the rows. -/
theorem isReordered_rows {m : Nat} {P P' : SparseMatrix Rat m n} (h : P.IsReordered P') :
    (SparseMatrix.ofRows (rows P ratio)).IsReordered (SparseMatrix.ofRows (rows P' ratio)) := by
  intro i
  rw [SparseMatrix.row_ofRows, SparseMatrix.row_ofRows]
  exact row_perm (h i)

end Truncation

end Multigrid
