import Multigrid.Strength.Influence
import Multigrid.Proofs.Sparse.ReadBack

/-!
# Marks of compressed operators

The kernel that measures an operator has two forms.  One works on the rows of an operator.  The
other reads a compressed operator with as many further columns as there are slots, as the columns of
slots may lie outside.  A compressed operator whose columns are all inside has no entries in further
columns: its thresholds, marks and weights are those of its operator, and so are its faults.

## Main results

* `StrengthGraph.row_ofMatrix_padded`: further points leave the marks as they are
* `SparseMatrix.measured_compressed`: both forms of the kernel agree
-/

namespace Multigrid

variable {β V W : Type} {n : Nat}

/-! ## Marks -/

/-- Points that contribute nothing may be left out. -/
theorem flatMap_finRange_add {k : Nat} {f : Fin (n + k) → List β}
    (h : ∀ i : Fin k, f (i.natAdd n) = []) :
    (List.finRange (n + k)).flatMap f = (List.finRange n).flatMap fun i => f (i.castAdd k) := by
  have hrest : (List.ofFn fun i : Fin k => f (i.natAdd n)).flatten = [] := by
    rw [List.flatten_eq_nil_iff]
    intro row hrow
    obtain ⟨i, rfl⟩ := List.mem_ofFn.mp hrow
    exact h i
  rw [List.flatMap_def, ← List.ofFn_eq_map, List.ofFn_add, List.flatten_append, hrest,
    List.append_nil, List.flatMap_def, ← List.ofFn_eq_map]
  rfl

namespace StrengthGraph

variable [Arith V] {k : Nat} (tolerance : V) (A : SparseMatrix V n n)

theorem threshold_padded (i : Fin n) :
    threshold tolerance (A.padded k) (i.castAdd k) = threshold tolerance A i := by
  have hdiagonal : (A.padded k).lastDiagonal? (i.castAdd k) = A.lastDiagonal? i := by
    simp only [SparseMatrix.lastDiagonal?, SparseMatrix.row_padded_castAdd, List.filter_map,
      Function.comp_def, Entry.column_widened_eq_iff, List.getLast?_map, Option.map_map]
    rfl
  have hoff : offDiagonal (A.padded k) (i.castAdd k) = offDiagonal A i := by
    simp only [offDiagonal, SparseMatrix.row_padded_castAdd, List.filter_map,
      Function.comp_def, ne_eq, Entry.column_widened_eq_iff, List.map_map]
    rfl
  rw [threshold, threshold, hasNegativeDiagonal, hasNegativeDiagonal, hdiagonal, hoff]

/-- The marked entries of a point that is not one of the further points. -/
theorem row_ofMatrix_padded (i : Fin n) :
    (ofMatrix tolerance (A.padded k)).row (i.castAdd k) =
      ((ofMatrix tolerance A).row i).map fun c => ⟨c.toEntry.widened k, c.strong⟩ := by
  simp only [ofMatrix, row_ofRows, SparseMatrix.row_padded_castAdd, List.map_map,
    threshold_padded]
  refine List.map_congr_left fun e _ => ?_
  rw [Function.comp_apply, Function.comp_apply, Connection.mk.injEq]
  refine ⟨rfl, decide_eq_decide.mpr ?_⟩
  rw [ne_eq, ne_eq, Entry.column_widened_eq_iff]
  rfl

theorem row_ofMatrix_padded_natAdd (i : Fin k) :
    (ofMatrix tolerance (A.padded k)).row (i.natAdd n) = [] := by
  rw [ofMatrix, row_ofRows, SparseMatrix.row_padded_natAdd, List.map_nil]

theorem flags_ofMatrix_padded :
    (ofMatrix tolerance (A.padded k)).flags = (ofMatrix tolerance A).flags := by
  rw [flags, flatMap_finRange_add fun i => by rw [row_ofMatrix_padded_natAdd, List.map_nil]]
  simp only [row_ofMatrix_padded, List.map_map]
  rfl

theorem strongPairs_ofMatrix_padded : (ofMatrix tolerance (A.padded k)).strongPairs =
    (ofMatrix tolerance A).strongPairs.map fun (i, j) => (i.castAdd k, j.castAdd k) := by
  rw [strongPairs, flatMap_finRange_add fun i => by
    rw [strongRow, row_ofMatrix_padded_natAdd, List.filter_nil, List.map_nil]]
  simp only [strongRow, row_ofMatrix_padded, List.filter_map, List.map_map, strongPairs,
    List.map_flatMap]
  rfl

end StrengthGraph

/-! ## Measuring a compressed form -/

/-- The marks and the weights of a compressed operator are those of the operator. -/
theorem SparseMatrix.measured_compressed [Arith V] [Arith W] [Storage V V W]
    (A : SparseMatrix V n n) (tolerance : W) (start : InfluenceStart) :
    A.compressed.measured n tolerance start =
      (A.measured tolerance start).map fun (graph, weights) => (graph.flags, weights) := by
  -- every strong entry has one of the first `n` columns
  have hpoints {k : Nat} (columns : Array Int) :
      (StrengthGraph.ofMatrix (Storage.narrow tolerance) (A.padded k)).strongPairs.mapM
        (fun (_, column) => if h : column < n then some (⟨column, h⟩ : Fin n)
          else columns[column.val - n]?.bind (pointOf? n)) =
        some ((StrengthGraph.ofMatrix (Storage.narrow tolerance) A).strongPairs.map Prod.snd) := by
    rw [StrengthGraph.strongPairs_ofMatrix_padded, List.mapM_map]
    simp only [Function.comp_def, Fin.val_castAdd, Fin.is_lt, dite_true]
    exact List.mapM_pure
  rw [Compressed.measured, SparseMatrix.measured]
  cases checkTolerance tolerance with
  | error fault => rfl
  | ok _ =>
    refine (bind_eq_of_eq_ok A.checkOrder_compressed).trans ?_
    cases (start.weights n : Except (Fault W) (Vector Float32 n)) with
    | error fault => rfl
    | ok weights =>
      refine (bind_eq_of_eq_ok (A.checkRows_compressed (Nat.le_refl n))).trans ?_
      rw [withOwnColumns_compressed]
      refine (bind_eq_of_eq_ok A.toMatrixBy_compressed).trans ?_
      simp only [hpoints, StrengthGraph.flags_ofMatrix_padded]
      rfl

end Multigrid
