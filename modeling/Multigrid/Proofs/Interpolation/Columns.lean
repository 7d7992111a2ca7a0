import Multigrid.Interpolation.Columns
import Multigrid.Proofs.Sparse.RowBuffer

/-!
# The numbers of coarse points

The number of a point is the number of coarse points before it.  On the coarse points it is
strictly increasing and stays below their number, so a list of coarse points in ascending order
keeps its order, and loses nothing, when its points are numbered.

## Main results

* `get_coarseNumbers`: the number of a point
* `coarseNumbers_lt_coarseNumbers`, `coarseNumbers_lt_coarseCount`: numbers of coarse points
* `map_row_coarseColumns`: a row whose columns are numbered
-/

namespace Multigrid

variable {n : Nat} {labels : Vector Label n}

theorem foldl_add_eq_sum (flags : List Nat) (a : Nat) : flags.foldl (· + ·) a = a + flags.sum := by
  induction flags generalizing a with
  | nil => rfl
  | cons flag flags ih => rw [List.foldl_cons, ih, List.sum_cons, Nat.add_assoc]

theorem sum_coarseFlags (ls : List Label) :
    (ls.map fun l => if l = .coarse then 1 else 0).sum = ls.count .coarse := by
  induction ls with
  | nil => rfl
  | cons l ls ih =>
    rw [List.map_cons, List.sum_cons, ih, List.count_cons, Nat.add_comm]
    simp

theorem toList_coarseFlags :
    (coarseFlags labels).toList = labels.toList.map fun l => if l = .coarse then 1 else 0 :=
  Vector.toList_map

theorem get_coarseFlags (i : Fin n) :
    (coarseFlags labels).get i = if labels.get i = .coarse then 1 else 0 :=
  Vector.getElem_map _ i.isLt

theorem count_coarseFlags : (coarseFlags labels).toList.count 1 = coarseCount labels := by
  rw [toList_coarseFlags, List.count, List.countP_map, coarseCount, List.count]
  refine List.countP_congr fun l _ => ?_
  by_cases hl : l = .coarse <;> simp [hl]

theorem coarseCount_le : coarseCount labels ≤ n :=
  List.count_le_length.trans_eq Vector.length_toList

theorem consecutiveNumbers_coarseFlags :
    (consecutiveNumbers (coarseFlags labels).toList).2 = coarseCount labels := by
  simp only [consecutiveNumbers, runningTotals, List.getLastD_eq_getLast?, List.getLast?_scanl,
    Option.getD_some]
  rw [foldl_add_eq_sum, toList_coarseFlags, sum_coarseFlags, Nat.zero_add, coarseCount]

theorem getD_consecutiveNumbers (i : Fin n) :
    (consecutiveNumbers (coarseFlags labels).toList).1.getD i 0 = (coarseNumbers labels).get i := by
  have hget : (coarseNumbers labels).get i =
      (consecutiveNumbers (coarseFlags labels).toList).1.getD i 0 := Vector.getElem_ofFn i.isLt
  exact hget.symm

/-- The number of a point is the number of coarse points before it. -/
theorem get_coarseNumbers (i : Fin n) :
    (coarseNumbers labels).get i = (labels.toList.take i).count .coarse := by
  have hlen : (coarseFlags labels).toList.length = n := Vector.length_toList
  have hi := i.isLt
  rw [← getD_consecutiveNumbers, consecutiveNumbers, runningTotals, List.getD_eq_getElem?_getD,
    List.getElem?_dropLast, if_pos (by rw [List.length_scanl, hlen]; omega), List.getElem?_scanl,
    if_pos (by omega), Option.getD_some, foldl_add_eq_sum, toList_coarseFlags, ← List.map_take,
    sum_coarseFlags, Nat.zero_add]

theorem count_take_succ {i : Fin n} (hi : labels.get i = .coarse) :
    (labels.toList.take (i + 1)).count .coarse = (labels.toList.take i).count .coarse + 1 := by
  have hget : labels.toList[i.val]? = some .coarse := by
    rw [← hi, List.getElem?_eq_getElem (by simp)]
    rfl
  rw [List.take_add_one, hget, List.count_append]
  rfl

/-- Numbers of coarse points have the order of the points. -/
theorem coarseNumbers_lt_coarseNumbers {i j : Fin n} (hi : labels.get i = .coarse) (hij : i < j) :
    (coarseNumbers labels).get i < (coarseNumbers labels).get j := by
  -- the later point counts the earlier one and all that come before it
  rw [get_coarseNumbers, get_coarseNumbers, Nat.lt_iff_add_one_le, ← count_take_succ hi]
  exact (List.take_sublist_take_left (Nat.succ_le_of_lt hij)).count_le _

theorem coarseNumbers_lt_coarseCount {i : Fin n} (hi : labels.get i = .coarse) :
    (coarseNumbers labels).get i < coarseCount labels := by
  rw [get_coarseNumbers, Nat.lt_iff_add_one_le, ← count_take_succ hi]
  exact (List.take_sublist _ _).count_le _

theorem entry_injective {V : Type} {m : Nat} :
    Function.Injective fun e : Entry m V => (e.column.val, e.value) := by
  rintro ⟨⟨c, hc⟩, x⟩ ⟨⟨c', hc'⟩, x'⟩ h
  cases h
  rfl

/-- Numbering the columns of coarse points keeps all entries and their order. -/
theorem map_row_coarseColumns {V : Type} {buffer : RowBuffer V n} {i : Fin n}
    {entries : List (Entry n V)} (hslots : buffer.rowSlots i = entries.map some)
    (hcoarse : ∀ e ∈ entries, labels.get e.column = .coarse) :
    ((coarseColumns labels buffer).row i).map (fun e => (e.column.val, e.value)) =
      entries.map fun e => ((coarseNumbers labels).get e.column, e.value) := by
  have hrow : (coarseColumns labels buffer).row i = entries.filterMap fun e =>
      if h : (coarseNumbers labels).get e.column < coarseCount labels then
        some ⟨⟨(coarseNumbers labels).get e.column, h⟩, e.value⟩
      else none := by
    rw [coarseColumns, SparseMatrix.renumber, SparseMatrix.row_ofRows, RowBuffer.toMatrix,
      SparseMatrix.row_ofRows, hslots]
    simp
  -- no entry is dropped, as all columns are coarse points
  rw [hrow, List.map_filterMap, ← List.filterMap_eq_map]
  apply List.filterMap_congr
  intro e he
  rw [dif_pos (coarseNumbers_lt_coarseCount (hcoarse e he))]
  rfl

end Multigrid
