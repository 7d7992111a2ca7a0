import Multigrid.Hierarchy.Level
import Multigrid.Proofs.Sparse.Coefficient

/-!
# Transpose and product in coefficients

In exact arithmetic the stored entries of a matrix stand for its coefficients, and the order in
which they are stored, entries that are zero, and entries that share a position make no difference
to them.  Both normalisations keep the coefficients, and the sparse transpose and product are the
transpose and the product of the coefficients.

A product keeps one sum for every column that it has met.  Adding to the sum of a column adds to the
coefficient of that column, as no column has two sums.

## Main definitions

* `SparseMatrix.coefficients`: the coefficients as a matrix

## Main results

* `SparseMatrix.coefficients_transpose`, `SparseMatrix.coefficients_mul`: transpose and product
* `SparseMatrix.coefficients_galerkin`: the coarse operator
-/

namespace Multigrid

variable {k m n : Nat}

/-! ## Entries of a row -/

theorem coefficientOf_append (entries entries' : List (Entry n Rat)) (j : Fin n) :
    coefficientOf (entries ++ entries') j = coefficientOf entries j + coefficientOf entries' j := by
  simp [coefficientOf]

/-- The order of the entries does not matter. -/
theorem coefficientOf_of_perm {entries entries' : List (Entry n Rat)} (h : entries.Perm entries')
    (j : Fin n) : coefficientOf entries j = coefficientOf entries' j :=
  ((h.filter _).map _).sum_eq

/-- Entries that are zero may be dropped. -/
theorem coefficientOf_filter_isZero (entries : List (Entry n Rat)) (j : Fin n) :
    coefficientOf (entries.filter fun e => !Storage.isZero e.value) j =
      coefficientOf entries j := by
  have hkeeps (x : Rat) : (!Storage.isZero x) = true ↔ x ≠ 0 := by
    show (!(x == 0)) = true ↔ x ≠ 0
    simp
  induction entries with
  | nil => rfl
  | cons e entries ih =>
    rw [List.filter_cons, coefficientOf_cons]
    by_cases h : e.value = 0
    · rw [if_neg (mt (hkeeps e.value).mp (not_not.mpr h)), ih, h, ite_self, zero_add]
    · rw [if_pos ((hkeeps e.value).mpr h), coefficientOf_cons, ih]

/-- A sum over entries in which every value counts with a factor of its column. -/
theorem sum_map_value_mul (entries : List (Entry n Rat)) (factor : Fin n → Rat) :
    (entries.map fun e => e.value * factor e.column).sum =
      ∑ j, coefficientOf entries j * factor j := by
  induction entries with
  | nil => simp
  | cons e entries ih =>
    simp only [List.map_cons, List.sum_cons, ih, coefficientOf_cons, add_mul, ite_mul, zero_mul,
      Finset.sum_add_distrib, Finset.sum_ite_eq, Finset.mem_univ, if_true]

namespace SparseMatrix

/-! ## The sums of a product -/

section Accumulate

variable {sums : List (Entry n Rat)}

theorem map_column_accumulate (c : Fin n) (x : Rat) :
    (accumulate sums c x).map Entry.column =
      if c ∈ sums.map Entry.column then sums.map Entry.column else c :: sums.map Entry.column := by
  have hany : sums.any (·.column = c) = decide (c ∈ sums.map Entry.column) := by
    rw [Bool.eq_iff_iff]
    simp
  simp only [accumulate, hany, decide_eq_true_eq]
  split_ifs with hmem
  · rw [List.map_map]
    apply List.map_congr_left
    intro e _
    rw [Function.comp_apply]
    split_ifs with he
    exacts [he.symm, rfl]
  · rfl

/-- No column gets a second sum. -/
theorem nodup_accumulate (h : (sums.map Entry.column).Nodup) (c : Fin n) (x : Rat) :
    ((accumulate sums c x).map Entry.column).Nodup := by
  rw [map_column_accumulate]
  split_ifs with hmem
  · exact h
  · exact List.nodup_cons.mpr ⟨hmem, h⟩

/-- Adding to the sum that is kept for a column, of which there is one. -/
theorem coefficientOf_map_add (h : (sums.map Entry.column).Nodup) {c : Fin n}
    (hmem : c ∈ sums.map Entry.column) (x : Rat) (j : Fin n) :
    coefficientOf (sums.map fun e => if e.column = c then ⟨c, e.value + x⟩ else e) j =
      coefficientOf sums j + if c = j then x else 0 := by
  induction sums with
  | nil => cases hmem
  | cons e sums ih =>
    rw [List.map_cons, List.nodup_cons] at h
    rw [List.map_cons, coefficientOf_cons, coefficientOf_cons]
    by_cases he : e.column = c
    · -- the sums behind it belong to other columns
      have hrest : sums.map (fun e => if e.column = c then ⟨c, e.value + x⟩ else e) = sums := by
        refine (List.map_congr_left fun f hf => if_neg ?_).trans (List.map_id _)
        exact fun heq => h.1 (he ▸ heq ▸ List.mem_map_of_mem hf)
      rw [hrest, if_pos he, he]
      split_ifs <;> ring
    · have hrest : c ∈ sums.map Entry.column :=
        (List.mem_cons.mp hmem).resolve_left fun heq => he heq.symm
      rw [if_neg he, ih h.2 hrest, add_assoc]

theorem coefficientOf_accumulate (h : (sums.map Entry.column).Nodup) (c : Fin n) (x : Rat)
    (j : Fin n) :
    coefficientOf (accumulate sums c x) j = coefficientOf sums j + if c = j then x else 0 := by
  have hany : sums.any (·.column = c) = true ↔ c ∈ sums.map Entry.column := by simp
  rw [accumulate]
  by_cases hmem : sums.any (·.column = c) = true
  · rw [if_pos hmem]
    exact coefficientOf_map_add h (hany.mp hmem) x j
  · have hfirst : Storage.add Storage.zero x = x := zero_add x
    rw [if_neg hmem, coefficientOf_cons, hfirst, add_comm]

/-- A multiple of a row is added to the sums. -/
theorem coefficientOf_foldl_accumulate (row : List (Entry n Rat)) (a : Rat)
    (h : (sums.map Entry.column).Nodup) :
    ((row.foldl (fun sums f => accumulate sums f.column (a * f.value)) sums).map
        Entry.column).Nodup ∧
      ∀ j, coefficientOf (row.foldl (fun sums f => accumulate sums f.column (a * f.value)) sums) j =
        coefficientOf sums j + a * coefficientOf row j := by
  induction row generalizing sums with
  | nil => exact ⟨h, by simp⟩
  | cons f row ih =>
    obtain ⟨hnodup, hsum⟩ := ih (nodup_accumulate h f.column (a * f.value))
    refine ⟨hnodup, fun j => ?_⟩
    rw [List.foldl_cons, hsum, coefficientOf_accumulate h, coefficientOf_cons, mul_add, mul_ite,
      mul_zero, add_assoc]

/-- The rows that the entries of a row select are added up. -/
theorem coefficientOf_foldl_rows (B : SparseMatrix Rat m n) (entries : List (Entry m Rat))
    (h : (sums.map Entry.column).Nodup) (j : Fin n) :
    coefficientOf (entries.foldl (fun sums e => (B.row e.column).foldl
        (fun sums f => accumulate sums f.column (e.value * f.value)) sums) sums) j =
      coefficientOf sums j + (entries.map fun e => e.value * B.coefficient e.column j).sum := by
  induction entries generalizing sums with
  | nil => simp
  | cons e entries ih =>
    obtain ⟨hnodup, hsum⟩ := coefficientOf_foldl_accumulate (B.row e.column) e.value h
    rw [List.foldl_cons, ih hnodup, hsum, List.map_cons, List.sum_cons, coefficient, add_assoc]

end Accumulate

/-! ## Matrices -/

theorem coefficient_sorted (A : SparseMatrix Rat m n) (i : Fin m) (j : Fin n) :
    A.sorted.coefficient i j = A.coefficient i j := by
  rw [coefficient, sorted, row_ofRows]
  exact coefficientOf_of_perm (List.mergeSort_perm _ _) j

theorem coefficient_withoutZeros (A : SparseMatrix Rat m n) (i : Fin m) (j : Fin n) :
    A.withoutZeros.coefficient i j = A.coefficient i j := by
  rw [coefficient, withoutZeros, row_ofRows]
  exact coefficientOf_filter_isZero (A.row i) j

theorem coefficient_transpose (A : SparseMatrix Rat m n) (i : Fin m) (j : Fin n) :
    A.transpose.coefficient j i = A.coefficient i j := by
  -- only row `i` contributes entries to column `i` of the transpose
  have hrows (rows : List (Fin m)) (hnodup : rows.Nodup) : coefficientOf (rows.flatMap fun i' =>
      ((A.row i').filter (·.column = j)).map fun e => (⟨i', e.value⟩ : Entry m Rat)) i =
        if i ∈ rows then A.coefficient i j else 0 := by
    induction rows with
    | nil => simp
    | cons i' rows ih =>
      rw [List.nodup_cons] at hnodup
      have hfirst : coefficientOf (((A.row i').filter (·.column = j)).map fun e =>
          (⟨i', e.value⟩ : Entry m Rat)) i = if i' = i then A.coefficient i' j else 0 := by
        simp only [coefficientOf, List.filter_map, Function.comp_def, List.map_map]
        split_ifs with heq
        · simp [heq, coefficient, coefficientOf]
        · simp [heq]
      rw [List.flatMap_cons, coefficientOf_append, hfirst, ih hnodup.2]
      by_cases heq : i' = i
      · obtain rfl := heq
        simp [hnodup.1]
      · have hne : ¬ i = i' := fun h => heq h.symm
        simp [heq, hne]
  rw [coefficient, transpose, row_ofRows, hrows _ (List.nodup_finRange m),
    if_pos (List.mem_finRange i)]

theorem coefficient_mul (A : SparseMatrix Rat k m) (B : SparseMatrix Rat m n) (i : Fin k)
    (j : Fin n) : (A.mul B).coefficient i j = ∑ l, A.coefficient i l * B.coefficient l j := by
  rw [coefficient, mul, row_ofRows, coefficientOf_filter_isZero,
    coefficientOf_foldl_rows B (A.row i) (by simp), coefficientOf_nil, zero_add]
  exact sum_map_value_mul (A.row i) fun l => B.coefficient l j

/-- The coefficients as a matrix. -/
def coefficients (A : SparseMatrix Rat m n) : Matrix (Fin m) (Fin n) Rat :=
  Matrix.of A.coefficient

theorem coefficients_apply (A : SparseMatrix Rat m n) (i : Fin m) (j : Fin n) :
    A.coefficients i j = A.coefficient i j := rfl

theorem coefficients_sorted (A : SparseMatrix Rat m n) : A.sorted.coefficients = A.coefficients :=
  Matrix.ext A.coefficient_sorted

theorem coefficients_withoutZeros (A : SparseMatrix Rat m n) :
    A.withoutZeros.coefficients = A.coefficients :=
  Matrix.ext A.coefficient_withoutZeros

/-- The sparse transpose is the transpose. -/
theorem coefficients_transpose (A : SparseMatrix Rat m n) :
    A.transpose.coefficients = A.coefficients.transpose :=
  Matrix.ext fun j i => A.coefficient_transpose i j

/-- The sparse product is the product. -/
theorem coefficients_mul (A : SparseMatrix Rat k m) (B : SparseMatrix Rat m n) :
    (A.mul B).coefficients = A.coefficients * B.coefficients :=
  Matrix.ext fun i j => (A.coefficient_mul B i j).trans (Matrix.mul_apply).symm

/-- The coarse operator. -/
theorem coefficients_galerkin (A : SparseMatrix Rat n n) (P : SparseMatrix Rat n k) :
    (A.galerkin P).2.coefficients = P.coefficients.transpose * A.coefficients * P.coefficients := by
  rw [galerkin, coarsened, coefficients_sorted, coefficients_mul, coefficients_mul,
    coefficients_transpose]

end SparseMatrix

end Multigrid
