import Multigrid.Proofs.Sparse.Compacted
import Multigrid.Sparse.Compressed

/-!
# Well-formed compressed matrices

The row pointer of a compressed matrix starts at zero, does not decrease and ends at the number of
entries, and all columns lie inside of the matrix.  The compressed form of a matrix is like that by
the way it is made.  What a builder returns is the compressed form of its matrix if the builder
counted the lengths of the rows that it wrote, and left no slot open.

## Main definitions

* `Compressed.IsWellFormed`: the parts fit together and the columns lie inside
* `RowBuffer.Holds`: a buffer with the rows of a matrix, one after the other

## Main results

* `SparseMatrix.isWellFormed_compressed`: compressed matrices are well formed
* `RowBuffer.holds_ofRows`: buffers that are filled row by row
-/

namespace Multigrid

variable {α : Type} {k m n : Nat}

/-- The row pointer has a position more than there are rows, starts at zero, does not decrease and
ends at the number of entries, and the columns lie inside of the matrix. -/
structure Compressed.IsWellFormed (c : Compressed α) (m n : Nat) : Prop where
  /-- The number of positions. -/
  length_pointer : c.pointer.length = m + 1
  /-- The first position. -/
  head_pointer : c.pointer.head? = some 0
  /-- The order of the positions. -/
  ascending_pointer : c.pointer.Pairwise (· ≤ ·)
  /-- The last position. -/
  last_pointer : c.pointer.getLast? = some (c.values.length : Int)
  /-- Every entry has a column. -/
  length_columns : c.columns.length = c.values.length
  /-- The columns. -/
  columns_lt : ∀ j ∈ c.columns, 0 ≤ j ∧ j < n

theorem pairwise_runningTotals (counts : List Nat) :
    (runningTotals (counts.map Int.ofNat)).Pairwise (· ≤ ·) := by
  rw [List.pairwise_iff_getElem]
  intro i j hi hj hij
  have hlength := length_runningTotals counts
  have hget (k : Nat) (hk : k < (runningTotals (counts.map Int.ofNat)).length) :
      (runningTotals (counts.map Int.ofNat))[k] = ((counts.take k).sum : Int) :=
    Option.some.inj ((List.getElem?_eq_getElem hk).symm.trans
      (getElem?_runningTotals (by omega)))
  rw [hget, hget]
  -- the later position counts all that the earlier one does
  exact_mod_cast (List.take_sublist_take_left hij.le).sum_le_sum fun _ _ => Nat.zero_le _

namespace SparseMatrix

variable (A : SparseMatrix α m n)

theorem rowLengths_eq : A.rowLengths = (List.finRange m).map fun i => (A.row i).length := by
  rw [rowLengths, toList_eq_map_get, List.map_map]
  rfl

theorem entries_eq : A.entries = (List.finRange m).flatMap A.row := by
  rw [entries, toList_eq_map_get, List.flatMap_def]
  rfl

theorem pointer_compressed : A.compressed.pointer = rowPointer A.row := by
  rw [compressed, rowLengths_eq, rowPointer]

/-- The compressed form of a matrix is well formed. -/
theorem isWellFormed_compressed : A.compressed.IsWellFormed m n where
  length_pointer := A.pointer_compressed ▸ length_rowPointer
  head_pointer := A.pointer_compressed ▸ head?_rowPointer
  ascending_pointer := A.pointer_compressed ▸ pairwise_runningTotals _
  last_pointer := by
    rw [pointer_compressed, getLast?_rowPointer, rowEntries, ← entries_eq, compressed,
      List.length_map]
  length_columns := by rw [compressed, List.length_map, List.length_map]
  columns_lt := by
    intro j hj
    obtain ⟨e, -, rfl⟩ := List.mem_map.mp hj
    exact ⟨Int.natCast_nonneg _, by exact_mod_cast e.column.isLt⟩

end SparseMatrix

namespace RowBuffer

/-- All slots are written, the row pointer is the one of the matrix, and the slots hold the entries
of the matrix, except that its columns are renumbered. -/
structure Holds (buffer : RowBuffer α k) (number : Fin k → Nat) (A : SparseMatrix α m n) :
    Prop where
  /-- The row pointer. -/
  pointer : buffer.pointer = A.compressed.pointer
  /-- The slots. -/
  slots : buffer.slots.toList.map (Option.map fun e => (number e.column, e.value)) =
    A.entries.map fun e => some (e.column.val, e.value)

theorem holds_ofRows {width : Nat} {rows : Fin m → List (Entry k α)} {number : Fin k → Nat}
    {A : SparseMatrix α m n} (h : ∀ i, (A.row i).map (fun e => (e.column.val, e.value)) =
      (rows i).map fun e => (number e.column, e.value)) :
    (ofRows rows width).Holds number A where
  pointer := by
    have hlength (i : Fin m) : (rows i).length = (A.row i).length := by
      simpa using (congrArg List.length (h i)).symm
    simp only [A.pointer_compressed, ofRows, filled, rowPointer, hlength]
  slots := by
    have hall : A.entries.map (fun e => (e.column.val, e.value)) =
        (rowEntries rows).map fun e => (number e.column, e.value) := by
      rw [A.entries_eq, rowEntries, List.map_flatMap, List.map_flatMap]
      simp only [h]
    have hsome := congrArg (List.map some) hall
    rw [List.map_map, List.map_map] at hsome
    simpa [ofRows, filled, List.map_map, Function.comp_def] using hsome.symm

/-- Rows that are filled into a buffer are the rows of its matrix. -/
theorem holds_ofRows_self {width : Nat} (rows : Fin m → List (Entry n α)) :
    (ofRows rows width).Holds Fin.val (.ofRows rows) :=
  holds_ofRows fun i => by rw [SparseMatrix.row_ofRows]

end RowBuffer

end Multigrid
