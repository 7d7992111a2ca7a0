import Multigrid.Proofs.Scalar.Exact
import Multigrid.Proofs.Strength.Relation

/-!
# Coefficients of a matrix

The coefficient of a row in a column is the sum of the entries that are stored there, zero if there
are none.  In a row that stores no column twice, a sum over the stored entries is a sum over all
columns, as long as what is added for a coefficient of zero is zero.

## Main definitions

* `SparseMatrix.coefficient`: the coefficients of a matrix
* `SparseMatrix.HasDistinctColumns`: no row stores a column twice
* `SparseMatrix.ofDense`: a matrix with given coefficients

## Main results

* `sum_map_eq_sum_coefficientOf`: a sum over the entries of a row
* `StrengthGraph.sum_map_row`: the same for marked entries
-/

namespace Multigrid

variable {α : Type} {m n : Nat}

/-- The sum of the entries in column `j`. -/
def coefficientOf (entries : List (Entry n Rat)) (j : Fin n) : Rat :=
  ((entries.filter (·.column = j)).map Entry.value).sum

@[simp] theorem coefficientOf_nil (j : Fin n) : coefficientOf [] j = 0 := rfl

theorem coefficientOf_cons (e : Entry n Rat) (entries : List (Entry n Rat)) (j : Fin n) :
    coefficientOf (e :: entries) j =
      (if e.column = j then e.value else 0) + coefficientOf entries j := by
  unfold coefficientOf
  by_cases h : e.column = j
  · simp [h]
  · simp [h]

theorem coefficientOf_eq_zero {entries : List (Entry n Rat)} {j : Fin n}
    (h : j ∉ entries.map Entry.column) : coefficientOf entries j = 0 := by
  have hnone : entries.filter (·.column = j) = [] := by
    rw [List.filter_eq_nil_iff]
    intro e he
    simpa using fun heq => h (List.mem_map.mpr ⟨e, he, heq⟩)
  rw [coefficientOf, hnone, List.map_nil, List.sum_nil]

theorem coefficientOf_of_mem {entries : List (Entry n Rat)} (h : (entries.map Entry.column).Nodup)
    {e : Entry n Rat} (he : e ∈ entries) : coefficientOf entries e.column = e.value := by
  induction entries with
  | nil => cases he
  | cons e' entries ih =>
    rw [List.map_cons, List.nodup_cons] at h
    rw [coefficientOf_cons]
    rcases List.mem_cons.mp he with rfl | he
    · rw [if_pos rfl, coefficientOf_eq_zero h.1, add_zero]
    · have hne : e'.column ≠ e.column := fun heq => h.1 (heq ▸ List.mem_map_of_mem he)
      rw [if_neg hne, ih h.2 he, zero_add]

/-- In a row that stores no column twice, the entry that is stored last in a column is the only one.
-/
theorem getLast?_filter_eq {entries : List (Entry n Rat)} (h : (entries.map Entry.column).Nodup)
    (j : Fin n) :
    ((entries.filter (·.column = j)).getLast?.map Entry.value).getD 0 =
      coefficientOf entries j := by
  rw [coefficientOf]
  have hnodup := (List.filter_sublist (p := (·.column = j)) (l := entries)).map Entry.column
    |>.nodup h
  have hcolumn : ∀ e ∈ entries.filter (·.column = j), e.column = j := by
    intro e he
    simpa using (List.mem_filter.mp he).2
  generalize entries.filter (·.column = j) = kept at hnodup hcolumn ⊢
  rcases kept with _ | ⟨e, _ | ⟨e', rest⟩⟩
  · rfl
  · simp
  · have hsame : e.column = e'.column := by rw [hcolumn e (by simp), hcolumn e' (by simp)]
    simp [hsame] at hnodup

/-- A sum over entries in different columns is a sum over all columns. -/
theorem sum_map_eq_sum_coefficientOf {f : Fin n → Rat → Rat} (hf : ∀ j, f j 0 = 0)
    {entries : List (Entry n Rat)} (h : (entries.map Entry.column).Nodup) :
    (entries.map fun e => f e.column e.value).sum = ∑ j, f j (coefficientOf entries j) := by
  induction entries with
  | nil => simp [hf]
  | cons e entries ih =>
    rw [List.map_cons, List.nodup_cons] at h
    -- the first entry is all there is in its column
    have hsplit (j : Fin n) : f j (coefficientOf (e :: entries) j) =
        (if e.column = j then f e.column e.value else 0) + f j (coefficientOf entries j) := by
      rw [coefficientOf_cons]
      split_ifs with hj
      · obtain rfl := hj
        rw [coefficientOf_eq_zero h.1, add_zero, hf, add_zero]
      · rw [zero_add, zero_add]
    rw [List.map_cons, List.sum_cons, ih h.2]
    simp only [hsplit, Finset.sum_add_distrib, Finset.sum_ite_eq, Finset.mem_univ, if_true]

/-- The values of entries. -/
def valuesOf (entries : List (Entry n Rat)) : List Rat := entries.map Entry.value

theorem sum_valuesOf (entries : List (Entry n Rat)) :
    (valuesOf entries).sum = ∑ j, coefficientOf entries j := by
  rw [valuesOf]
  induction entries with
  | nil => simp
  | cons e entries ih =>
    simp only [List.map_cons, List.sum_cons, ih, coefficientOf_cons, Finset.sum_add_distrib,
      Finset.sum_ite_eq, Finset.mem_univ, if_true]

namespace SparseMatrix

theorem eq_of_row_eq {A B : SparseMatrix α m n} (h : ∀ i, A.row i = B.row i) : A = B := by
  cases A with
  | mk rows =>
    cases B with
    | mk rows' => exact congrArg mk (Vector.ext fun i hi => h ⟨i, hi⟩)

theorem map_id_eq (A : SparseMatrix α m n) : A.map id = A :=
  eq_of_row_eq fun i => by
    rw [map, row_ofRows]
    exact List.map_id _

/-- The coefficient of row `i` in column `j`. -/
def coefficient (A : SparseMatrix Rat m n) (i : Fin m) (j : Fin n) : Rat :=
  coefficientOf (A.row i) j

/-- No row stores a column twice. -/
def HasDistinctColumns (A : SparseMatrix α m n) : Prop :=
  ∀ i, ((A.row i).map Entry.column).Nodup

instance (A : SparseMatrix α m n) : Decidable A.HasDistinctColumns :=
  inferInstanceAs (Decidable (∀ i, ((A.row i).map Entry.column).Nodup))

theorem get_diagonal (A : SparseMatrix Rat n n) (i : Fin n) :
    A.diagonal.get i = A.coefficient i i := by
  have hget : A.diagonal.get i = ((A.row i).filter (·.column = i)).foldl
      (fun sum e => sum + e.value) 0 := Vector.getElem_ofFn i.isLt
  rw [hget, foldl_add_eq_sum_map, zero_add, coefficient, coefficientOf]

/-- The entries of a dense matrix that are not zero, in order of columns. -/
def ofDense (M : Matrix (Fin m) (Fin n) Rat) : SparseMatrix Rat m n :=
  .ofRows fun i => (List.finRange n).filterMap fun j => if M i j = 0 then none else some ⟨j, M i j⟩

theorem coefficient_ofDense (M : Matrix (Fin m) (Fin n) Rat) (i : Fin m) (j : Fin n) :
    (ofDense M).coefficient i j = M i j := by
  have hsum (columns : List (Fin n)) : coefficientOf (columns.filterMap fun k =>
      if M i k = 0 then none else some ⟨k, M i k⟩) j =
        (columns.map fun k => if k = j then M i k else 0).sum := by
    induction columns with
    | nil => rfl
    | cons k columns ih =>
      rw [List.map_cons, List.sum_cons, ← ih]
      by_cases hzero : M i k = 0
      · simp [hzero]
      · simp [hzero, coefficientOf_cons]
  rw [coefficient, ofDense, row_ofRows, hsum, ← Fin.sum_univ_def, Finset.sum_ite_eq',
    if_pos (Finset.mem_univ j)]

end SparseMatrix

namespace StrengthGraph

variable {G : StrengthGraph Rat n}

theorem nodup_columns (h : G.operator.HasDistinctColumns) (i : Fin n) :
    ((G.row i).map fun c => c.column).Nodup := by
  have hrow := h i
  rw [row_operator, List.map_map] at hrow
  exact hrow

/-- If no column is stored twice, a column tells whether its entry is strong. -/
theorem strong_eq_isStrong (h : G.operator.HasDistinctColumns) {i : Fin n} {c : Connection Rat n}
    (hc : c ∈ G.row i) : c.strong = decide (G.IsStrong i c.column) := by
  cases hstrong : c.strong with
  | true => exact (decide_eq_true ⟨c, hc, hstrong, rfl⟩).symm
  | false =>
    refine (decide_eq_false ?_).symm
    rintro ⟨c', hc', hstrong', hcolumn⟩
    obtain rfl := List.inj_on_of_nodup_map (nodup_columns h i) hc' hc hcolumn
    rw [hstrong] at hstrong'
    cases hstrong'

/-- A sum over the marked entries of a row is a sum over all columns. -/
theorem sum_map_row (h : G.operator.HasDistinctColumns) (i : Fin n)
    {f : Bool → Fin n → Rat → Rat} (hf : ∀ strong j, f strong j 0 = 0) :
    ((G.row i).map fun c => f c.strong c.column c.value).sum =
      ∑ j, f (decide (G.IsStrong i j)) j (G.operator.coefficient i j) := by
  have hsum := sum_map_eq_sum_coefficientOf (f := fun j x => f (decide (G.IsStrong i j)) j x)
    (fun j => hf _ j) (h i)
  rw [row_operator, List.map_map] at hsum
  simp only [SparseMatrix.coefficient, row_operator]
  rw [← hsum]
  congr 1
  apply List.map_congr_left
  intro c hc
  rw [strong_eq_isStrong h hc]
  rfl

end StrengthGraph

end Multigrid
