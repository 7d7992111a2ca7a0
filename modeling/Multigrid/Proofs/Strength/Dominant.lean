import Multigrid.Proofs.Sparse.Coefficient
import Multigrid.Proofs.Strength.Relation

/-!
# Dominant operators

An operator is dominant if its off-diagonal entries are at most zero, its diagonal ones at least
zero, and no row sum is negative.  The thresholds of such an operator are at most zero, so its
strong entries lie off the diagonal and are below zero.  That is all that interpolation needs to
know about the marks.

## Main definitions

* `SparseMatrix.IsDominant`: dominant operators
* `SparseMatrix.HasNoNegativeDiagonal`: rows that are compared with their smallest value
* `StrengthGraph.IsDominant`: dominant operators whose strong entries are below zero

## Main results

* `StrengthGraph.isDominant_ofMatrix`: the marks by thresholds
-/

namespace Multigrid

variable {n : Nat}

/-! ## Operators -/

/-- Only diagonal entries may be above zero, only the others below, and the diagonal makes up for
the other entries of its row. -/
structure SparseMatrix.IsDominant (A : SparseMatrix Rat n n) : Prop where
  /-- No row stores a column twice. -/
  hasDistinctColumns : A.HasDistinctColumns
  /-- The entries off the diagonal. -/
  offDiagonal_nonpos : ∀ i, ∀ e ∈ A.row i, e.column ≠ i → e.value ≤ 0
  /-- The entries on the diagonal. -/
  diagonal_nonneg : ∀ i, ∀ e ∈ A.row i, e.column = i → 0 ≤ e.value
  /-- The row sums. -/
  rowSum_nonneg : ∀ i, 0 ≤ (valuesOf (A.row i)).sum

/-- Row `i` has a diagonal that is zero or above, or none. -/
def SparseMatrix.HasNoNegativeDiagonal (A : SparseMatrix Rat n n) (i : Fin n) : Prop :=
  ∀ d, A.lastDiagonal? i = some d → 0 ≤ d

theorem SparseMatrix.hasNoNegativeDiagonal {A : SparseMatrix Rat n n} {i : Fin n}
    (h : ∀ e ∈ A.row i, e.column = i → 0 ≤ e.value) : A.HasNoNegativeDiagonal i := by
  intro d hlast
  obtain ⟨e, he, rfl⟩ := Option.map_eq_some_iff.mp hlast
  obtain ⟨hmem, hcolumn⟩ := List.mem_filter.mp (List.mem_of_getLast? he)
  exact h e hmem (of_decide_eq_true hcolumn)

namespace SparseMatrix.IsDominant

variable {A : SparseMatrix Rat n n} (h : A.IsDominant) {i j : Fin n}

include h

theorem coefficient_nonpos (hij : j ≠ i) : A.coefficient i j ≤ 0 := by
  refine (List.sum_le_card_nsmul _ 0 ?_).trans_eq (smul_zero _)
  intro x hx
  obtain ⟨e, he, rfl⟩ := List.mem_map.mp hx
  obtain ⟨hmem, hcolumn⟩ := List.mem_filter.mp he
  obtain rfl := of_decide_eq_true hcolumn
  exact h.offDiagonal_nonpos i e hmem hij

theorem coefficient_self_nonneg : 0 ≤ A.coefficient i i := by
  apply List.sum_nonneg
  intro x hx
  obtain ⟨e, he, rfl⟩ := List.mem_map.mp hx
  obtain ⟨hmem, hcolumn⟩ := List.mem_filter.mp he
  exact h.diagonal_nonneg i e hmem (of_decide_eq_true hcolumn)

theorem sum_coefficient_nonneg : 0 ≤ ∑ j, A.coefficient i j :=
  (h.rowSum_nonneg i).trans_eq (sum_valuesOf (A.row i))

end SparseMatrix.IsDominant

/-! ## Marks -/

namespace StrengthGraph

/-- The operator is dominant, and strong entries are off the diagonal and below zero. -/
structure IsDominant (G : StrengthGraph Rat n) : Prop where
  /-- The operator. -/
  operator : G.operator.IsDominant
  /-- The strong entries. -/
  strong_neg : ∀ i, ∀ c ∈ G.row i, c.strong = true → c.column ≠ i ∧ c.value < 0

namespace IsDominant

variable {G : StrengthGraph Rat n} (h : G.IsDominant) {i j : Fin n}

include h

theorem value_nonpos {c : Connection Rat n} (hc : c ∈ G.row i) (hne : c.column ≠ i) :
    c.value ≤ 0 := by
  refine h.operator.offDiagonal_nonpos i c.toEntry ?_ hne
  rw [row_operator]
  exact List.mem_map_of_mem hc

theorem ne_of_isStrong (hij : G.IsStrong i j) : j ≠ i := by
  obtain ⟨c, hc, hstrong, rfl⟩ := hij
  exact (h.strong_neg i c hc hstrong).1

theorem coefficient_neg (hij : G.IsStrong i j) : G.operator.coefficient i j < 0 := by
  obtain ⟨c, hc, hstrong, rfl⟩ := hij
  have hmem : c.toEntry ∈ G.operator.row i := by
    rw [row_operator]
    exact List.mem_map_of_mem hc
  rw [SparseMatrix.coefficient, coefficientOf_of_mem (h.operator.hasDistinctColumns i) hmem]
  exact (h.strong_neg i c hc hstrong).2

end IsDominant

section Threshold

variable {A : SparseMatrix Rat n n} {tolerance : Rat}

theorem operator_ofMatrix : (ofMatrix tolerance A).operator = A := by
  apply SparseMatrix.eq_of_row_eq
  intro i
  rw [row_operator, ofMatrix, row_ofRows, List.map_map]
  exact List.map_id _

theorem hasNegativeDiagonal_eq_false {i : Fin n} (h : A.HasNoNegativeDiagonal i) :
    hasNegativeDiagonal A i = false := by
  unfold hasNegativeDiagonal
  cases hlast : A.lastDiagonal? i with
  | none => rfl
  | some d => exact decide_eq_false (not_lt.mpr (h d hlast))

theorem threshold_eq_least {i : Fin n} (h : A.HasNoNegativeDiagonal i) :
    threshold tolerance A i = (offDiagonal A i).foldl Arith.least 0 * tolerance := by
  rw [threshold, hasNegativeDiagonal_eq_false h]
  rfl

theorem foldl_least_nonpos (i : Fin n) : (offDiagonal A i).foldl Arith.least 0 ≤ 0 :=
  (isLeast_foldl_least 0 (offDiagonal A i)).2 List.mem_cons_self

/-- The threshold of a row without a negative diagonal is a part of an extreme that is at most zero.
-/
theorem threshold_nonpos (h : ∀ i, ∀ e ∈ A.row i, e.column = i → 0 ≤ e.value)
    (htolerance : 0 ≤ tolerance) (i : Fin n) : threshold tolerance A i ≤ 0 := by
  rw [threshold_eq_least (SparseMatrix.hasNoNegativeDiagonal (h i))]
  exact mul_nonpos_of_nonpos_of_nonneg (foldl_least_nonpos i) htolerance

theorem isDominant_ofMatrix (h : A.IsDominant)
    (htolerance : 0 ≤ tolerance) : (ofMatrix tolerance A).IsDominant where
  operator := by rwa [operator_ofMatrix]
  strong_neg i c hc hstrong := by
    obtain ⟨hne, hlt⟩ := (mem_row_ofMatrix hc).2.mp hstrong
    exact ⟨hne, hlt.trans_le (threshold_nonpos h.diagonal_nonneg htolerance i)⟩

end Threshold

end StrengthGraph

end Multigrid
