import Multigrid.Proofs.Sparse.WellFormed

/-!
# Reading compressed forms back

The compressed form of a matrix passes the checks of a reader, and its rows are the rows of the
matrix.  A reader may allow for more rows and columns than the matrix has.  It then returns the
matrix with empty rows after its own and with columns that no entry is in.  A reader that accepts
more numbers as columns than another one reads all that the other one reads, and reads it alike.

## Main definitions

* `SparseMatrix.padded`: an operator with further points that have no entries

## Main results

* `Compressed.byRow_flatten`: items that are stored row after row
* `SparseMatrix.rows_compressed`: the rows of a compressed form
* `SparseMatrix.toMatrixBy_compressed`: the operator that is read from a compressed form
* `Compressed.toMatrixBy_eq_ok_of_imp`: a reader that accepts more columns
-/

namespace Multigrid

variable {α β R : Type} {m n : Nat}

/-! ## Reading a compressed form -/

namespace Compressed

/-- Items that are stored row after row are cut into their rows again. -/
theorem byRow_flatten {c : Compressed α} {items : List (List β)}
    (h : c.pointer = runningTotals ((items.map List.length).map Int.ofNat)) :
    c.byRow items.flatten = items := by
  -- position `k` of the pointer counts the items of the first `k` rows
  have hget {k : Nat} (hk : k ≤ items.length) {hlt : k < c.pointer.length} :
      (c.pointer[k]).toNat = ((items.map List.length).take k).sum := by
    have hsome : (runningTotals ((items.map List.length).map Int.ofNat))[k]? =
        some (((items.map List.length).take k).sum : Int) :=
      getElem?_runningTotals (by simpa using hk)
    rw [← h, List.getElem?_eq_getElem hlt, Option.some.injEq] at hsome
    rw [hsome, Int.toNat_natCast]
  have hlength : c.pointer.length = items.length + 1 := by
    rw [h, length_runningTotals, List.length_map]
  have hcount : c.slotCount = items.flatten.length := by
    rw [slotCount, h, List.getLastD_eq_getLast?, getLast?_runningTotals, List.length_flatten]
    rfl
  rw [byRow, hcount, List.take_length]
  apply List.ext_getElem
  · simp [hlength]
  · intro i hi hi'
    rw [List.getElem_zipWith, List.getElem_tail, hget hi'.le, hget hi', List.extract_toArray]
    refine Eq.trans ?_ (List.drop_take_succ_flatten_eq_getElem items i hi')
    rw [List.drop_take]

end Compressed

namespace SparseMatrix

variable (A : SparseMatrix α m n)

theorem gaps_compressed : gaps A.compressed.pointer = A.rowLengths.map Int.ofNat :=
  gaps_runningTotals _

theorem checkOrder_compressed : (A.compressed.checkOrder : Except (Fault R) Unit) = .ok () := by
  apply if_pos
  rw [Compressed.isOrdered, gaps_compressed, List.all_map, List.all_eq_true]
  intro count _
  exact decide_eq_true (Int.natCast_nonneg count)

theorem checkRows_compressed {size : Nat} (h : m ≤ size) :
    (A.compressed.checkRows size : Except (Fault R) Unit) = .ok () := by
  have hnone : (gaps A.compressed.pointer).drop size = [] := by
    rw [gaps_compressed, List.drop_eq_nil_iff, List.length_map, rowLengths, List.length_map,
      Vector.length_toList]
    exact h
  rw [Compressed.checkRows, hnone]
  rfl

theorem rows_compressed : A.compressed.rows =
    A.rows.toList.map fun row => row.map fun e => ((e.column.val : Int), e.value) := by
  have hitems : A.compressed.columns.zip A.compressed.values =
      (A.rows.toList.map fun row => row.map fun e => ((e.column.val : Int), e.value)).flatten := by
    rw [compressed, List.zip_map', entries, List.map_flatten]
  rw [Compressed.rows, hitems]
  apply Compressed.byRow_flatten
  rw [compressed, rowLengths, List.map_map (l := A.rows.toList)]
  simp [Function.comp_def]

/-- All columns of a compressed form are inside of the matrix. -/
theorem withOwnColumns_compressed : A.compressed.withOwnColumns n = A.compressed := by
  refine congrArg (fun columns => { A.compressed with columns := columns }) ?_
  apply List.ext_getElem
  · rw [List.length_map, List.length_zipIdx]
    rfl
  · intro k hk hk'
    rw [List.getElem_map, List.getElem_zipIdx]
    exact if_pos (A.isWellFormed_compressed.columns_lt _ (List.getElem_mem hk'))

end SparseMatrix

/-! ## Rows and columns to spare -/

/-- The same entry of a row with `k` more columns. -/
def Entry.widened (k : Nat) (e : Entry n α) : Entry (n + k) α := ⟨e.column.castAdd k, e.value⟩

theorem Entry.column_widened_eq_iff {k : Nat} {e : Entry n α} {i : Fin n} :
    (e.widened k).column = i.castAdd k ↔ e.column = i :=
  Fin.castAdd_inj

/-- The same operator with `k` more points, which have no entries. -/
def SparseMatrix.padded (k : Nat) (A : SparseMatrix α n n) : SparseMatrix α (n + k) (n + k) :=
  .ofRows (Fin.addCases (fun i => (A.row i).map (Entry.widened k)) fun _ => [])

namespace SparseMatrix

variable {k : Nat} (A : SparseMatrix α n n)

@[simp] theorem row_padded_castAdd (i : Fin n) :
    (A.padded k).row (i.castAdd k) = (A.row i).map (Entry.widened k) := by
  rw [padded, row_ofRows, Fin.addCases_left]

@[simp] theorem row_padded_natAdd (i : Fin k) : (A.padded k).row (i.natAdd n) = [] := by
  rw [padded, row_ofRows, Fin.addCases_right]

/-- Reading a compressed form as an operator of more points. -/
theorem toMatrixBy_compressed :
    (A.compressed.toMatrixBy (n + k) (n + k) (columnOf? (n + k)) : Except (Fault R) _) =
      .ok (A.padded k) := by
  have hcolumn (column : Fin n) : columnOf? (n + k) column = some (column.castAdd k) :=
    dif_pos ⟨Int.natCast_nonneg _, (column.castAdd k).isLt⟩
  have hrow (row : List (Entry n α)) :
      (row.mapM fun e => some (⟨e.column.castAdd k, e.value⟩ : Entry (n + k) α)) =
        some (row.map (Entry.widened k)) :=
    List.mapM_pure
  have hrows : (A.rows.toList.mapM fun row => some (row.map (Entry.widened k))) =
      some (A.rows.toList.map (List.map (Entry.widened k))) :=
    List.mapM_pure
  refine bind_eq_ok (A.checkRows_compressed (Nat.le_add_right n k)) ?_
  simp only [rows_compressed, List.mapM_map, Function.comp_def, hcolumn, Option.map_some, hrow,
    hrows]
  refine congrArg Except.ok (congrArg ofRows (funext fun i => ?_))
  rw [Array.getD_eq_getD_getElem?, List.getElem?_toArray, List.getElem?_map]
  induction i using Fin.addCases with
  | left i =>
    rw [Fin.addCases_left, Fin.val_castAdd, List.getElem?_eq_getElem (by simp)]
    rfl
  | right i =>
    rw [Fin.addCases_right, List.getElem?_eq_none (by simp)]
    rfl

end SparseMatrix

/-! ## More numbers of columns -/

theorem mapM_eq_some_of_imp {f g : α → Option β} (hfg : ∀ a b, f a = some b → g a = some b)
    {items : List α} {results : List β} (h : items.mapM f = some results) :
    items.mapM g = some results := by
  induction items generalizing results with
  | nil => exact h
  | cons item items ih =>
    rw [List.mapM_cons] at h ⊢
    obtain ⟨result, hresult, h⟩ := Option.bind_eq_some_iff.mp h
    obtain ⟨rest, hrest, h⟩ := Option.bind_eq_some_iff.mp h
    exact Option.bind_eq_some_iff.mpr
      ⟨result, hfg item result hresult, Option.bind_eq_some_iff.mpr ⟨rest, ih hrest, h⟩⟩

/-- If every column that `f` finds is found by `g` as well, then `g` reads what `f` reads. -/
theorem Compressed.toMatrixBy_eq_ok_of_imp {c : Compressed α} {f g : Int → Option (Fin n)}
    (hfg : ∀ column j, f column = some j → g column = some j) {A : SparseMatrix α m n}
    (h : c.toMatrixBy m n f = (.ok A : Except (Fault R) _)) :
    c.toMatrixBy m n g = (.ok A : Except (Fault R) _) := by
  obtain ⟨_, hcheck, h⟩ := exists_of_bind_eq_ok h
  refine bind_eq_ok hcheck ?_
  split at h
  · next rows hrows =>
    rw [mapM_eq_some_of_imp ?_ hrows]
    · exact h
    · -- entry by entry, the column is the same
      refine fun row _ => mapM_eq_some_of_imp ?_
      rintro ⟨column, value⟩ e he
      obtain ⟨j, hj, rfl⟩ := Option.map_eq_some_iff.mp he
      exact Option.map_eq_some_iff.mpr ⟨j, hfg column j hj, rfl⟩
  · cases h

/-- The number of a column is the number of a point, counted from the start. -/
theorem pointOf?_of_columnOf?_eq_some {column : Int} {j : Fin n}
    (h : columnOf? n column = some j) : pointOf? n column = some j := by
  have hbounds : 0 ≤ column ∧ column.toNat < n := by
    by_contra hnot
    cases (dif_neg hnot).symm.trans h
  have hslot : slotAt? n column = some column.toNat := by
    unfold slotAt?
    dsimp only
    rw [if_neg (Int.not_lt.mpr hbounds.1)]
    exact if_pos ⟨hbounds.1, by omega⟩
  rw [pointOf?, leadingPoint?, hslot, Option.bind_some, Int.toNat_of_nonneg hbounds.1]
  exact h

end Multigrid
