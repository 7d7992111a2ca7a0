import Multigrid.Proofs.Hierarchy.Steps
import Multigrid.Proofs.Sparse.Product
import Multigrid.Proofs.Splitting.Justification

/-!
# Unit rows

A coarse point keeps its value: its row has the entry one in the column of the point, and no other.
Both schemes write such rows, whatever the signs of the operator and however many points the
splitting left undecided.  Truncation keeps them, since the only entry is the largest one and is
scaled by one.

Every column is the column of exactly one coarse point.  Each coefficient of a vector can therefore
be read off its image, and the prolongator is injective.

## Main definitions

* `HasUnitRows`: the rows of coarse points are unit rows

## Main results

* `bijOn_coarseNumbers`: coarse points and columns
* `hasUnitRows_interpolated`, `HasUnitRows.truncatedIfAsked`: the two steps to a prolongator
* `Parameters.hasUnitRows_prolongation`: the rows of a prolongator
* `HasUnitRows.injective_mulVec`: the prolongator is injective
-/

namespace Multigrid

variable {n : Nat} {labels : Vector Label n}

/-! ## Coarse points and columns -/

theorem injOn_coarseNumbers :
    Set.InjOn (coarseNumbers labels).get {i | labels.get i = .coarse} := by
  intro i hi j hj heq
  rcases lt_trichotomy i j with hlt | heq' | hlt
  · exact absurd heq (coarseNumbers_lt_coarseNumbers hi hlt).ne
  · exact heq'
  · exact absurd heq (coarseNumbers_lt_coarseNumbers hj hlt).ne'

/-- Every column is the number of one coarse point. -/
theorem bijOn_coarseNumbers :
    Set.BijOn (coarseNumbers labels).get {i | labels.get i = .coarse}
      (Set.Iio (coarseCount labels)) := by
  have hmaps : Set.MapsTo (coarseNumbers labels).get {i | labels.get i = .coarse}
      (Set.Iio (coarseCount labels)) := fun i hi => coarseNumbers_lt_coarseCount hi
  refine ⟨hmaps, injOn_coarseNumbers, ?_⟩
  -- there are as many numbers below the count as there are coarse points
  have hcard : (Finset.range (coarseCount labels)).card ≤
      (Finset.univ.filter fun i => labels.get i = .coarse).card := by
    rw [Finset.card_range, coarseCount, count_toList_eq_card]
  have hsurj := Finset.surjOn_of_injOn_of_card_le (coarseNumbers labels).get
    (s := Finset.univ.filter fun i => labels.get i = .coarse)
    (t := Finset.range (coarseCount labels))
    (by simpa using hmaps) (by simpa using injOn_coarseNumbers) hcard
  simpa using hsurj

/-! ## Unit rows -/

section Rows

variable {V W : Type} [Arith V]

/-- The row of a coarse point has the entry one in the column of the point, and no other. -/
def HasUnitRows (labels : Vector Label n) (P : SparseMatrix V n (coarseCount labels)) : Prop :=
  ∀ i (hi : labels.get i = .coarse),
    P.row i = [⟨⟨(coarseNumbers labels).get i, coarseNumbers_lt_coarseCount hi⟩, 1⟩]

namespace Direct

variable {R : Type} [Arith W] [Storage V V W] {G : StrengthGraph V n}

theorem hasUnitRows (hcounts : CountsKept G labels) {buffer : RowBuffer V n}
    (h : prolongator G labels n = (.ok buffer : Except (Fault R) (RowBuffer V n))) :
    HasUnitRows labels (coarseColumns labels buffer) := by
  rw [prolongator_eq_ok hcounts] at h
  cases h
  intro i hi
  apply List.map_injective_iff.mpr entry_injective
  rw [map_row_coarseColumns_rows, rows, row, if_pos hi]
  rfl

end Direct

variable [Arith W] [Storage V V W]

/-- Interpolation by either scheme writes unit rows. -/
theorem hasUnitRows_interpolated {G : StrengthGraph V n} (hcounts : Direct.CountsKept G labels)
    {diagonal : Vector W n} {p : Parameters W} {buffer : RowBuffer V n}
    (h : interpolated G labels diagonal p = .ok buffer) :
    HasUnitRows labels (coarseColumns labels buffer) := by
  unfold interpolated at h
  cases hscheme : p.scheme with
  | direct =>
    rw [hscheme] at h
    exact Direct.hasUnitRows hcounts h
  | extended =>
    rw [hscheme] at h
    obtain ⟨given, -, h⟩ := exists_of_bind_eq_ok h
    exact fun i hi => (Extended.hasReachedColumns_of_prolongator_eq_ok h).unit hi

variable [UnitLaws V W]

namespace Truncation

/-- A unit row is kept as it is. -/
theorem row_unit {k : Nat} {ratio : W} (hratio : ratio ≤ 1) (c : Fin k) :
    row ratio [(⟨c, 1⟩ : Entry k V)] = [⟨c, 1⟩] := by
  have hthreshold : threshold ratio [(⟨c, 1⟩ : Entry k V)] = ratio := by
    rw [threshold, List.foldl_cons, List.foldl_nil, UnitLaws.magnitude_one,
      UnitLaws.greatest_zero_one V, UnitLaws.one_mul V]
  have hkept : kept ratio [(⟨c, 1⟩ : Entry k V)] = [⟨c, 1⟩] := by
    rw [kept, hthreshold, List.filter_cons, isKept, UnitLaws.magnitude_one,
      decide_eq_true hratio, if_pos rfl, List.filter_nil]
  have hsum : rowSum [(⟨c, 1⟩ : Entry k V)] = (1 : W) := by
    rw [rowSum, List.foldl_cons, List.foldl_nil, UnitLaws.widen_one, UnitLaws.zero_add_one V]
  have hscale : scale ratio [(⟨c, 1⟩ : Entry k V)] = (1 : W) := by
    rw [scale, hkept, hsum, UnitLaws.one_div_one V, ite_self]
  rw [row, hkept, hscale, List.map_cons, List.map_nil, UnitLaws.widen_one, UnitLaws.one_mul V,
    UnitLaws.narrow_one]

end Truncation

namespace HasUnitRows

variable {P P' : SparseMatrix V n (coarseCount labels)}

/-- Truncation keeps unit rows. -/
theorem truncatedIfAsked {ratio : W} (hP : HasUnitRows labels P)
    (h : truncatedIfAsked P ratio = .ok P') : HasUnitRows labels P' := by
  unfold Multigrid.truncatedIfAsked at h
  split_ifs at h with hratio
  · -- truncation has checked the ratio
    obtain ⟨_, hsizes, -⟩ := exists_of_bind_eq_ok h
    obtain ⟨_, hcheck, -⟩ := exists_of_bind_eq_ok hsizes
    have hvalid : 0 ≤ ratio ∧ ratio ≤ 1 := by
      unfold Truncation.checkRatio at hcheck
      split_ifs at hcheck with hvalid
      exact hvalid
    rw [Truncation.truncated_eq_ok P hvalid] at h
    cases h
    intro i hi
    rw [SparseMatrix.row_ofRows, Truncation.rows, hP i hi, Truncation.row_unit hvalid.2]
  · cases h
    exact hP

end HasUnitRows

/-- The prolongator of an operator has unit rows. -/
theorem Parameters.hasUnitRows_prolongation [ValueOrder V] {S : Type} [Storage S V W]
    {p : Parameters W} {A : SparseMatrix S n n} {q : Prolongation V n}
    (h : p.prolongation A = .ok q) : HasUnitRows q.splitting.labels q.matrix := by
  obtain ⟨graph, weights, buffer, hmeasured, -, hbuffer, hmatrix⟩ :=
    exists_of_prolongation_eq_ok h
  have hcounts := countsKept_of_measured hmeasured q.splitting.labels
  exact (hasUnitRows_interpolated hcounts hbuffer).truncatedIfAsked hmatrix

end Rows

/-! ## Injectivity -/

namespace HasUnitRows

variable {P : SparseMatrix Rat n (coarseCount labels)}

theorem coefficient_eq (hP : HasUnitRows labels P) {i : Fin n} (hi : labels.get i = .coarse)
    (j : Fin (coarseCount labels)) :
    P.coefficient i j = if (coarseNumbers labels).get i = j then 1 else 0 := by
  rw [SparseMatrix.coefficient, hP i hi, coefficientOf_cons, coefficientOf_nil, add_zero]
  simp only [Fin.ext_iff]

/-- A prolongator with unit rows is injective. -/
theorem injective_mulVec (hP : HasUnitRows labels P) :
    Function.Injective P.coefficients.mulVec := by
  -- the coarse point of a column has the value of that column
  have hread (x : Fin (coarseCount labels) → Rat) {i : Fin n} (hi : labels.get i = .coarse)
      {j : Fin (coarseCount labels)} (hj : (coarseNumbers labels).get i = j) :
      P.coefficients.mulVec x i = x j := by
    have hterm (j' : Fin (coarseCount labels)) :
        P.coefficients i j' * x j' = if j = j' then x j' else 0 := by
      rw [SparseMatrix.coefficients_apply, hP.coefficient_eq hi, hj, ite_mul, one_mul, zero_mul]
      simp only [Fin.ext_iff]
    simp only [Matrix.mulVec, dotProduct, hterm, Finset.sum_ite_eq, Finset.mem_univ, if_true]
  intro x y hxy
  funext j
  obtain ⟨i, hi, hj⟩ := bijOn_coarseNumbers.surjOn (Set.mem_Iio.mpr j.isLt)
  rw [← hread x hi hj, ← hread y hi hj, hxy]

end HasUnitRows

end Multigrid
