import Multigrid.Proofs.Interpolation.Columns
import Multigrid.Proofs.Interpolation.Reach
import Multigrid.Proofs.Sparse.RowBuffer

/-!
# The structure of extended interpolation

The lengths of the rows are counted with tables of one kind, and the weights are gathered in tables
of another.  Both kinds hold the reached points of a row, gathering weights moves none of them, and
the contents are listed in ascending order.  The row pointer that the lengths give is therefore the
row pointer of the rows that are written, and the writes of all rows go to consecutive slots.

## Main definitions

* `Extended.HasReachedColumns`: the columns of all rows of a prolongator

## Main results

* `Extended.exists_row`: the columns of a row
* `Extended.exists_prolongator`: the prolongator exists and has the structure
-/

namespace Multigrid

namespace Extended

variable {V W R : Type} {n : Nat}

/-! ## Gathering weights -/

section Gather

variable [Arith V] [Storage V V W]

theorem sameKeys_deposit (t : ProbingTable V) (k : Fin n) (x : W) :
    t.SameKeys (deposit t k x) := by
  unfold deposit
  cases h : t.add? k (Storage.narrow x) with
  | none => exact .refl t
  | some t' => exact ProbingTable.sameKeys_of_add? h

variable [Arith W] (G : StrengthGraph V n) (labels : Vector Label n) (diagonal : Vector W n)

theorem sameKeys_distribute (i k : Fin n) (x : W) (g : Gathered V W) :
    g.table.SameKeys (distribute G labels diagonal i k x g).table :=
  @ProbingTable.SameKeys.foldl V _ _ id _ (fun t _ => sameKeys_deposit t _ _) _ g.table

theorem sameKeys_gatherEntry (i : Fin n) (g : Gathered V W) (c : Connection V n) :
    g.table.SameKeys (gatherEntry G labels diagonal i g c).table := by
  have hfirst : g.table.SameKeys (if c.strong ∧ labels.get c.column = .fine then
      distribute G labels diagonal i c.column (Storage.widen c.value) g else g).table := by
    split_ifs
    · exact sameKeys_distribute G labels diagonal i c.column _ g
    · exact .refl g.table
  -- what is handed on comes first; then the entry itself is added, to the table or elsewhere
  apply hfirst.trans
  simp only [gatherEntry]
  generalize (if c.strong ∧ labels.get c.column = .fine then
      distribute G labels diagonal i c.column (Storage.widen c.value) g else g) = g'
  cases h : (if labels.get c.column = .coarse then
      g'.table.add? c.column (Storage.narrow (Storage.widen c.value : W)) else none) with
  | none =>
    simp only
    split_ifs <;> exact .refl g'.table
  | some t' =>
    split_ifs at h
    exact ProbingTable.sameKeys_of_add? h

/-- Gathering weights moves no key. -/
theorem sameKeys_gather (i : Fin n) (t : ProbingTable V) :
    t.SameKeys (gather G labels diagonal i t).table :=
  ProbingTable.SameKeys.foldl (sameKeys_gatherEntry G labels diagonal i)
    ((G.row i).filter (·.column ≠ i)) ⟨t, 0, 0⟩

end Gather

/-! ## Rows -/

section Rows

variable [Arith V] [Arith W] [Storage V V W] (G : StrengthGraph V n) (labels : Vector Label n)
  (diagonal : Vector W n) (firstOnly : Bool)

theorem columnOf?_val (l : Fin n) : columnOf? n l.val = some l := by
  rw [columnOf?, dif_pos ⟨Int.natCast_nonneg l.val, by simp⟩]
  rfl

variable {G labels firstOnly} in
theorem map_column_weights {i : Fin n} {t : ProbingTable V} {points : List (Fin n)}
    (h : t.sortedKeys = points.map fun l => (l.val : Int)) :
    (weights G labels diagonal i t).map Entry.column = points := by
  have hkeys := (sameKeys_gather G labels diagonal i t).sortedKeys_eq
  rw [← ProbingTable.sortedEntries_map_fst, h] at hkeys
  calc (weights G labels diagonal i t).map Entry.column
      = ((gather G labels diagonal i t).table.sortedEntries.map Prod.fst).filterMap
          (columnOf? n) := by
        rw [weights, List.map_filterMap, List.filterMap_map]
        apply List.filterMap_congr
        rintro ⟨k, x⟩ _
        rw [Option.map_map]
        exact Option.map_id'
    _ = points := by
        rw [hkeys, List.filterMap_map]
        simp [columnOf?_val]

/-- Every row can be built, and its columns are its points. -/
theorem exists_row (hn : n ≤ 0x8000000000000000) (i : Fin n) :
    ∃ entries, row G labels diagonal firstOnly (chosenCapacity G labels firstOnly none) i =
        (.ok entries : Except (Fault R) (List (Entry n V))) ∧
      entries.map Entry.column = rowPoints G labels firstOnly i ∧
      (labels.get i = .coarse → entries = [⟨i, 1⟩]) := by
  by_cases hi : labels.get i = .coarse
  · exact ⟨[⟨i, 1⟩], by rw [row, if_pos hi], by rw [rowPoints, if_pos hi]; rfl, fun _ => rfl⟩
  · obtain ⟨t, ht, hsorted, -⟩ := exists_reachTable (R := R) G labels firstOnly hn hi (0 : V)
    refine ⟨weights G labels diagonal i t, ?_, ?_, fun h => absurd h hi⟩
    · rw [row, if_neg hi, ht]
      rfl
    · rw [rowPoints, if_neg hi, map_column_weights diagonal hsorted]

end Rows

/-! ## Filling -/

section Fill

variable [Arith V] [Arith W] [Storage V V W] {G : StrengthGraph V n} {labels : Vector Label n}
  {diagonal : Vector W n} {firstOnly : Bool} {capacity : Int} {rows : Fin n → List (Entry n V)}

theorem fillRow_eq {i : Fin n} (hrow : row G labels diagonal firstOnly capacity i =
      (.ok (rows i) : Except (Fault R) (List (Entry n V))))
    {buffer : RowBuffer V n} (hpointer : buffer.pointer = rowPointer rows) :
    fillRow G labels diagonal firstOnly capacity buffer i =
      (buffer.writeAll (RowBuffer.placed ((rowPointer rows).getD i 0) (rows i)) :
        Except (Fault R) (RowBuffer V n)) := by
  -- the positions of the row are those behind the rows before it
  obtain ⟨pre, post, h⟩ := List.append_of_mem (List.mem_finRange i)
  have hstart : buffer.pointer[i.val]? = some ((pre.flatMap rows).length : Int) := by
    rw [hpointer, val_eq_length h, getElem?_rowPointer h]
  have hstop : buffer.pointer[i.val + 1]? =
      some ((pre.flatMap rows).length + (rows i).length : Int) := by
    rw [hpointer, val_eq_length h, getElem?_rowPointer_succ h]
  have hgap : ¬ ((rows i).length : Int) ≠
      (pre.flatMap rows).length + (rows i).length - (pre.flatMap rows).length := by omega
  rw [← hpointer, List.getD_eq_getElem?_getD, hstart, Option.getD_some]
  by_cases hi : labels.get i ≠ .coarse
  · simp only [fillRow, hstart, hstop, hrow, if_pos hi]
    exact if_neg hgap
  · simp only [fillRow, hstart, hrow, if_neg hi]
    rfl

/-- The rows are written one after the other, each to its own positions. -/
theorem foldlM_fillRow (hrow : ∀ i, row G labels diagonal firstOnly capacity i =
      (.ok (rows i) : Except (Fault R) (List (Entry n V))))
    (points : List (Fin n)) {buffer : RowBuffer V n} (hpointer : buffer.pointer = rowPointer rows) :
    points.foldlM (fillRow G labels diagonal firstOnly capacity) buffer =
      (buffer.writeAll (points.flatMap fun i : Fin n =>
        RowBuffer.placed ((rowPointer rows).getD i 0) (rows i)) :
        Except (Fault R) (RowBuffer V n)) := by
  induction points generalizing buffer with
  | nil => rfl
  | cons i points ih =>
    rw [List.foldlM_cons, fillRow_eq (hrow i) hpointer, List.flatMap_cons,
      RowBuffer.writeAll_append]
    cases h : (buffer.writeAll (RowBuffer.placed ((rowPointer rows).getD i 0) (rows i)) :
        Except (Fault R) (RowBuffer V n)) with
    | error fault => rfl
    | ok next =>
      -- the rows that follow find the same row pointer
      exact ih ((RowBuffer.pointer_writeAll _ h).trans hpointer)

/-- With the row pointer of the rows, the rows fill all slots. -/
theorem fill_eq_ok {given : Option Int} (hrow : ∀ i, row G labels diagonal firstOnly
      (chosenCapacity G labels firstOnly given) i =
        (.ok (rows i) : Except (Fault R) (List (Entry n V)))) :
    fill G labels diagonal firstOnly given .full (rowPointer rows) n =
      (.ok (RowBuffer.ofRows rows n) : Except (Fault R) (RowBuffer V n)) := by
  have hwrite : (List.finRange n).foldlM (fillRow G labels diagonal firstOnly
      (chosenCapacity G labels firstOnly given))
        (RowBuffer.filled (rowPointer rows) n [] (rowEntries rows).length) =
      (.ok (RowBuffer.ofRows rows n) : Except (Fault R) (RowBuffer V n)) := by
    rw [foldlM_fillRow hrow _ rfl, RowBuffer.flatMap_placed]
    exact RowBuffer.writeAll_placed (Nat.le_refl n) (rowEntries rows) [] 0
  have hfinish : (RowBuffer.ofRows rows n).finish (List.finRange n).length =
      (.ok (RowBuffer.ofRows rows n) : Except (Fault R) (RowBuffer V n)) := by
    rw [List.length_finRange]
    exact RowBuffer.finish_ofRows rows
  exact bind_eq_ok (RowBuffer.reserve_rowPointer rows) (bind_eq_ok hwrite (bind_eq_ok rfl hfinish))

end Fill

/-! ## The prolongator -/

/-- Every row of the prolongator has the columns of extended interpolation.  The columns are the
numbers of coarse points. -/
structure HasReachedColumns [One V] (G : StrengthGraph V n) (labels : Vector Label n)
    (firstOnly : Bool) (P : SparseMatrix V n (coarseCount labels)) : Prop where
  /-- The row of a coarse point has the entry one in the column of the point, and no other. -/
  unit {i : Fin n} (hi : labels.get i = .coarse) :
    P.row i = [⟨⟨(coarseNumbers labels).get i, coarseNumbers_lt_coarseCount hi⟩, 1⟩]
  /-- The columns of any other row are ascending. -/
  ascending {i : Fin n} : labels.get i ≠ .coarse →
    ((P.row i).map Entry.column).Pairwise (· < ·)
  /-- They are the columns of the points that the point of the row reaches. -/
  mem_iff {i : Fin n} : labels.get i ≠ .coarse → ∀ column : Fin (coarseCount labels),
    column ∈ (P.row i).map Entry.column ↔
      ∃ l, Reaches G labels firstOnly i l ∧ (coarseNumbers labels).get l = column

section Prolongator

variable [Arith V] [Arith W] [Storage V V W] {G : StrengthGraph V n} {labels : Vector Label n}
  {firstOnly : Bool}

theorem hasReachedColumns {rows : Fin n → List (Entry n V)}
    (hcolumns : ∀ i, (rows i).map Entry.column = rowPoints G labels firstOnly i)
    (hunit : ∀ i, labels.get i = .coarse → rows i = [⟨i, 1⟩])
    {P : SparseMatrix V n (coarseCount labels)}
    (hP : ∀ i, (P.row i).map (fun e => (e.column.val, e.value)) =
      (rows i).map fun e => ((coarseNumbers labels).get e.column, e.value)) :
    HasReachedColumns G labels firstOnly P := by
  have hvals (i : Fin n) : ((P.row i).map Entry.column).map Fin.val =
      (rowPoints G labels firstOnly i).map (coarseNumbers labels).get := by
    have h := congrArg (List.map Prod.fst) (hP i)
    rw [List.map_map, List.map_map] at h
    rw [List.map_map, ← hcolumns, List.map_map]
    exact h
  refine ⟨?_, ?_, ?_⟩
  · intro i hi
    apply List.map_injective_iff.mpr entry_injective
    simp only [hP, hunit i hi, List.map_cons, List.map_nil]
  · intro i hi
    -- numbers of coarse points have the order of the points
    have hpoints := pairwise_reachedPoints G labels firstOnly i
    have hnumbers := hpoints.imp_of_mem fun {a b} ha _ hab =>
      coarseNumbers_lt_coarseNumbers (mem_reachedPoints.mp ha).coarse hab
    have hmap := hvals i
    rw [rowPoints, if_neg hi] at hmap
    rw [← List.pairwise_map, ← hmap, List.pairwise_map] at hnumbers
    exact hnumbers
  · intro i hi column
    rw [← List.mem_map_of_injective Fin.val_injective, hvals, rowPoints, if_neg hi]
    simp only [List.mem_map, mem_reachedPoints]

/-- The lengths of rows are counted and the rows are written without a fault.  The counting finds
the lengths of the rows that are written, every slot is written once, and the prolongator with
consecutively numbered coarse points has the columns of extended interpolation.  The numbers of the
points have to fit into the slots of a table. -/
theorem exists_prolongator (hn : n ≤ 0x8000000000000000) (G : StrengthGraph V n)
    (labels : Vector Label n) (diagonal : Vector W n) (firstOnly : Bool) :
    ∃ (sizes : List Nat) (rows : Fin n → List (Entry n V)) (buffer : RowBuffer V n),
      -- both passes succeed
      (rowSizes G labels firstOnly none .full : Except (Fault R) (List Nat)) = .ok sizes ∧
      (∀ i, row G labels diagonal firstOnly (chosenCapacity G labels firstOnly none) i =
        (.ok (rows i) : Except (Fault R) (List (Entry n V)))) ∧
      (fill G labels diagonal firstOnly none .full (runningTotals (sizes.map Int.ofNat)) n :
        Except (Fault R) (RowBuffer V n)) = .ok buffer ∧
      buffer.pointer = runningTotals (sizes.map Int.ofNat) ∧
      -- the writes go to consecutive slots
      (∀ (i : Fin n) (b : RowBuffer V n), b.pointer = buffer.pointer →
        fillRow G labels diagonal firstOnly (chosenCapacity G labels firstOnly none) b i =
          (b.writeAll (RowBuffer.placed (buffer.pointer.getD i 0) (rows i)) :
            Except (Fault R) (RowBuffer V n))) ∧
      ((List.finRange n).flatMap fun i : Fin n =>
          (RowBuffer.placed (buffer.pointer.getD i 0) (rows i)).map Prod.fst) =
        (List.range buffer.slots.size).map Int.ofNat ∧
      buffer.slots.toList = (rowEntries rows).map some ∧
      -- the matrix has the counted lengths and the reached columns
      sizes.length = n ∧
      (∀ i : Fin n, sizes[i.val]? = some ((coarseColumns labels buffer).row i).length) ∧
      (consecutiveNumbers (coarseFlags labels).toList).2 = coarseCount labels ∧
      HasReachedColumns G labels firstOnly (coarseColumns labels buffer) := by
  choose rows hrow hcolumns hunit using exists_row (R := R) G labels diagonal firstOnly hn
  have hlength (i : Fin n) : (rows i).length = (rowPoints G labels firstOnly i).length := by
    rw [← hcolumns, List.length_map]
  have hsizes : (rowSizes G labels firstOnly none .full : Except (Fault R) (List Nat)) =
      .ok ((List.finRange n).map fun i => (rows i).length) := by
    rw [rowSizes_eq G labels firstOnly hn]
    simp only [hlength]
  have hmatrix (i : Fin n) := @map_row_coarseColumns n labels _ _ _ _
    (@RowBuffer.rowSlots_filled V n n n rows i) fun e he =>
      coarse_of_mem_rowPoints (hcolumns i ▸ List.mem_map_of_mem he)
  refine ⟨_, rows, RowBuffer.filled (rowPointer rows) n (rowEntries rows) 0, hsizes, hrow,
    fill_eq_ok hrow, rfl, fun i b hb => fillRow_eq (hrow i) hb, ?_, ?_, ?_, ?_,
    consecutiveNumbers_coarseFlags, hasReachedColumns hcolumns hunit hmatrix⟩
  · -- the writes of all rows, one after the other
    rw [← List.map_flatMap]
    show ((List.finRange n).flatMap fun i : Fin n =>
      RowBuffer.placed ((rowPointer rows).getD i 0) (rows i)).map Prod.fst = _
    rw [RowBuffer.flatMap_placed, RowBuffer.map_fst_placed]
    simp [RowBuffer.filled]
  · simp [RowBuffer.filled]
  · simp
  · intro i
    have hlen := congrArg List.length (hmatrix i)
    rw [List.length_map, List.length_map] at hlen
    rw [hlen]
    simp

/-- Three points in a row, of which the middle one and the last one are interpolated. -/
def chain : StrengthGraph Rat 3 :=
  .ofRows fun i => (List.finRange 3).filterMap fun j =>
    if i = j then some ⟨⟨j, 2⟩, false⟩
    else if i.val = j + 1 ∨ j.val = i + 1 then some ⟨⟨j, -1⟩, true⟩
    else none

/-- Only the first point of the chain is coarse. -/
def chainLabels : Vector Label 3 := #v[.coarse, .fine, .fine]

/-- The last point of the chain is interpolated from the first one, by way of the middle one. -/
theorem chain_prolongator : 3 ≤ 0x8000000000000000 ∧
    ∃ buffer : RowBuffer Rat 3, (fill chain chainLabels #v[2, 2, 2] false none .full
        [0, 1, 2, 3] 3 : Except (Fault Unit) (RowBuffer Rat 3)) = .ok buffer ∧
      HasReachedColumns chain chainLabels false (coarseColumns chainLabels buffer) ∧
      ⟨0, by decide⟩ ∈ ((coarseColumns chainLabels buffer).row 2).map Entry.column := by
  have hsizes : (rowSizes chain chainLabels false none .full : Except (Fault Unit) (List Nat)) =
      .ok [1, 1, 1] := by
    with_unfolding_all rfl
  refine ⟨by decide, ?_⟩
  obtain ⟨sizes, rows, buffer, hs, -, hfill, -, -, -, -, -, -, -, hcolumns⟩ :=
    exists_prolongator (R := Unit) (by decide) chain chainLabels #v[2, 2, 2] false
  obtain rfl : sizes = [1, 1, 1] := Except.ok.inj (hs.symm.trans hsizes)
  refine ⟨buffer, hfill, hcolumns, ?_⟩
  refine (hcolumns.mem_iff (i := 2) (by decide) ⟨0, by decide⟩).mpr ⟨0, ?_, by decide +kernel⟩
  exact mem_reached.mp (by decide +kernel)

end Prolongator

end Extended

end Multigrid
