import Multigrid.Sparse.RowBuffer
import Mathlib

/-!
# Writing rows one after the other

The running totals of the lengths of rows are the positions at which the rows start when they are
stored one after the other.  Writing every row to its own positions is then the same as writing the
entries of all rows to consecutive slots, and fills each slot once.

## Main definitions

* `rowPointer`, `rowEntries`: the row pointer and the entries of rows
* `RowBuffer.placed`: entries with consecutive positions
* `RowBuffer.filled`: a buffer whose leading slots are written

## Main results

* `RowBuffer.flatMap_placed`: the writes of all rows are consecutive
* `RowBuffer.writeAll_next`, `RowBuffer.writeAll_placed`: writing to the slots that come next
* `RowBuffer.rowSlots_filled`: the slots of a row hold its entries
-/

namespace Multigrid

variable {α β R : Type} {n : Nat}

theorem exists_of_bind_eq_ok {ε α β : Type} {x : Except ε α} {f : α → Except ε β} {b : β}
    (h : x >>= f = .ok b) : ∃ a, x = .ok a ∧ f a = .ok b := by
  cases x with
  | error fault => cases h
  | ok a => exact ⟨a, rfl, h⟩

theorem bind_eq_ok {ε α β : Type} {x : Except ε α} {f : α → Except ε β} {a : α} {b : β}
    (h : x = .ok a) (hf : f a = .ok b) : x >>= f = .ok b := by
  rw [h]
  exact hf

theorem bind_eq_of_eq_ok {ε α β : Type} {x : Except ε α} {f : α → Except ε β} {a : α}
    (h : x = .ok a) : x >>= f = f a := by
  rw [h]
  rfl

theorem bind_eq_error {ε α β : Type} {x : Except ε α} {f : α → Except ε β} {e : ε}
    (h : x = .error e) : x >>= f = .error e := by
  rw [h]
  rfl

/-- What follows a step matters only for results of the step. -/
theorem bind_congr_of_ok {ε α β : Type} {x : Except ε α} {f g : α → Except ε β}
    (h : ∀ a, x = .ok a → f a = g a) : x >>= f = x >>= g := by
  cases x with
  | error fault => rfl
  | ok a => exact h a rfl

theorem mapM_eq_ok {ε α β : Type} {f : α → Except ε β} {g : α → β} (items : List α)
    (h : ∀ a ∈ items, f a = .ok (g a)) : items.mapM f = .ok (items.map g) := by
  induction items with
  | nil => rfl
  | cons a items ih =>
    rw [List.mapM_cons, h a List.mem_cons_self, ih fun a' ha' => h a' (List.mem_cons_of_mem a ha')]
    rfl

theorem toList_eq_map_get (v : Vector α n) : v.toList = (List.finRange n).map v.get := by
  apply List.ext_getElem
  · simp
  · intro i h h'
    simp only [List.getElem_map, List.getElem_finRange]
    rfl

/-! ## The row pointer of rows -/

/-- The row pointer of rows that are stored one after the other. -/
def rowPointer (rows : Fin n → List β) : List Int :=
  runningTotals (((List.finRange n).map fun i => (rows i).length).map Int.ofNat)

/-- The entries of rows that are stored one after the other. -/
def rowEntries (rows : Fin n → List β) : List β := (List.finRange n).flatMap rows

theorem foldl_add_ofNat (counts : List Nat) (a : Int) :
    (counts.map Int.ofNat).foldl (· + ·) a = a + counts.sum := by
  induction counts generalizing a with
  | nil => simp
  | cons count counts ih =>
    rw [List.map_cons, List.foldl_cons, ih, List.sum_cons]
    simp only [Int.ofNat_eq_natCast]
    omega

theorem length_runningTotals (counts : List Nat) :
    (runningTotals (counts.map Int.ofNat)).length = counts.length + 1 := by
  rw [runningTotals, List.length_scanl, List.length_map]

theorem head?_runningTotals (counts : List Nat) :
    (runningTotals (counts.map Int.ofNat)).head? = some 0 :=
  List.head?_scanl

theorem getLast?_runningTotals (counts : List Nat) :
    (runningTotals (counts.map Int.ofNat)).getLast? = some (counts.sum : Int) := by
  rw [runningTotals, List.getLast?_scanl, foldl_add_ofNat, Int.zero_add]

theorem getElem?_runningTotals {counts : List Nat} {k : Nat} (h : k ≤ counts.length) :
    (runningTotals (counts.map Int.ofNat))[k]? = some ((counts.take k).sum : Int) := by
  rw [runningTotals, List.getElem?_scanl, if_pos (by simpa using h), ← List.map_take,
    foldl_add_ofNat, Int.zero_add]

section Rows

variable {rows : Fin n → List β} {pre post : List (Fin n)} {i : Fin n}

theorem val_eq_length (h : List.finRange n = pre ++ i :: post) : i.val = pre.length := by
  -- both are the position of the row in the list of all rows
  have hget : (List.finRange n)[pre.length]? = some i := by
    rw [h]
    simp
  obtain ⟨hlt, heq⟩ := List.getElem?_eq_some_iff.mp hget
  rw [← heq, List.getElem_finRange]
  rfl

theorem length_rowPointer : (rowPointer rows).length = n + 1 := by
  rw [rowPointer, length_runningTotals, List.length_map, List.length_finRange]

theorem head?_rowPointer : (rowPointer rows).head? = some 0 := head?_runningTotals _

theorem getLast?_rowPointer :
    (rowPointer rows).getLast? = some ((rowEntries rows).length : Int) := by
  rw [rowPointer, getLast?_runningTotals, rowEntries, List.length_flatMap]

/-- A row starts after the entries of the rows before it. -/
theorem getElem?_rowPointer (h : List.finRange n = pre ++ post) :
    (rowPointer rows)[pre.length]? = some ((pre.flatMap rows).length : Int) := by
  rw [rowPointer, getElem?_runningTotals]
  · rw [← List.map_take, h, List.take_left, List.length_flatMap]
  · rw [h]
    simp

theorem getElem?_rowPointer_succ (h : List.finRange n = pre ++ i :: post) :
    (rowPointer rows)[pre.length + 1]? =
      some ((pre.flatMap rows).length + (rows i).length : Int) := by
  have hnext : (rowPointer rows)[(pre ++ [i]).length]? =
      some (((pre ++ [i]).flatMap rows).length : Int) :=
    getElem?_rowPointer (by rw [h, List.append_assoc, List.singleton_append])
  simpa using hnext

end Rows

namespace RowBuffer

/-! ## Consecutive positions -/

/-- Entries with consecutive positions from `start` on. -/
def placed (start : Int) (entries : List (Entry n α)) : List (Int × Entry n α) :=
  entries.zipIdx.map fun (entry, t) => (start + (t : Int), entry)

theorem placed_append (start : Int) (entries entries' : List (Entry n α)) :
    placed start (entries ++ entries') =
      placed start entries ++ placed (start + entries.length) entries' := by
  rw [placed, List.zipIdx_append, List.map_append, placed, placed, Nat.zero_add,
    @List.zipIdx_eq_map_add _ entries' entries.length]
  simp [Int.add_assoc]

theorem placed_cons (start : Int) (entry : Entry n α) (entries : List (Entry n α)) :
    placed start (entry :: entries) = (start, entry) :: placed (start + 1) entries := by
  rw [← List.singleton_append, placed_append]
  simp [placed]

theorem map_fst_placed (start : Int) (entries : List (Entry n α)) :
    (placed start entries).map Prod.fst =
      (List.range entries.length).map fun (t : Nat) => start + t := by
  calc (placed start entries).map Prod.fst
      = (entries.zipIdx.map Prod.snd).map fun (t : Nat) => start + t := by
        rw [placed, List.map_map, List.map_map]
        rfl
    _ = (List.range entries.length).map fun (t : Nat) => start + t := by
        rw [List.zipIdx_map_snd, List.range_eq_range']

/-- The writes of rows that are stored one after the other have consecutive positions. -/
theorem flatMap_placed {m : Nat} (rows : Fin m → List (Entry n α)) :
    ((List.finRange m).flatMap fun i : Fin m => placed ((rowPointer rows).getD i 0) (rows i)) =
      placed 0 (rowEntries rows) := by
  -- by induction on the rows that are left, which follow the entries of those before them
  have hfrom (post pre : List (Fin m)) (h : List.finRange m = pre ++ post) :
      (post.flatMap fun i : Fin m => placed ((rowPointer rows).getD i 0) (rows i)) =
        placed (pre.flatMap rows).length (post.flatMap rows) := by
    induction post generalizing pre with
    | nil => simp [placed]
    | cons i post ih =>
      have hrest := ih (pre ++ [i]) (by rw [h, List.append_assoc, List.singleton_append])
      rw [List.flatMap_cons, hrest, List.flatMap_cons, placed_append, val_eq_length h,
        List.getD_eq_getElem?_getD, getElem?_rowPointer h, Option.getD_some]
      simp
  simpa [rowEntries] using hfrom (List.finRange m) [] rfl

/-! ## Buffers with written slots -/

/-- A buffer whose leading slots hold `done` and whose remaining `free` slots hold nothing. -/
def filled (pointer : List Int) (width : Nat) (done : List (Entry n α)) (free : Nat) :
    RowBuffer α n :=
  ⟨pointer, width, (done.map some ++ List.replicate free none).toArray⟩

variable {pointer : List Int} {width : Nat}

theorem reserve_eq_ok {total : Nat} (h : pointer.getLast? = some (total : Int)) :
    reserve pointer width = (.ok (filled pointer width [] total) :
      Except (Fault R) (RowBuffer α n)) := by
  simp only [reserve, h, if_neg (Int.not_lt.mpr (Int.natCast_nonneg total)), Int.toNat_natCast,
    filled, List.map_nil, List.nil_append, List.toArray_replicate]

theorem slotAt?_natCast {size slot : Nat} :
    slotAt? size slot = if slot < size then some slot else none := by
  simp only [slotAt?, if_neg (Int.not_lt.mpr (Int.natCast_nonneg slot)), Int.natCast_nonneg,
    true_and, Nat.cast_lt, Int.toNat_natCast]

/-- A write to the slot that comes next, whatever it holds. -/
theorem write_next (hwidth : n ≤ width) (front tail : List (Option (Entry n α)))
    (slot : Option (Entry n α)) (entry : Entry n α) :
    (⟨pointer, width, (front ++ slot :: tail).toArray⟩ : RowBuffer α n).write front.length entry =
      (.ok ⟨pointer, width, (front ++ some entry :: tail).toArray⟩ :
        Except (Fault R) (RowBuffer α n)) := by
  have hcol : ¬ width ≤ entry.column :=
    Nat.not_le.mpr (Nat.lt_of_lt_of_le entry.column.isLt hwidth)
  simp [write, hcol, slotAt?_natCast]

/-- There is no slot behind the last one. -/
theorem write_last (hwidth : n ≤ width) (slots : List (Option (Entry n α))) (entry : Entry n α) :
    (⟨pointer, width, slots.toArray⟩ : RowBuffer α n).write slots.length entry =
      (.error .slotOutOfRange : Except (Fault R) (RowBuffer α n)) := by
  have hcol : ¬ width ≤ entry.column :=
    Nat.not_le.mpr (Nat.lt_of_lt_of_le entry.column.isLt hwidth)
  simp [write, hcol, slotAt?_natCast]

theorem writeAll_nil (buffer : RowBuffer α n) :
    buffer.writeAll [] = (.ok buffer : Except (Fault R) (RowBuffer α n)) := rfl

theorem writeAll_cons (buffer : RowBuffer α n) (position : Int) (entry : Entry n α)
    (writes : List (Int × Entry n α)) :
    buffer.writeAll ((position, entry) :: writes) =
      (buffer.write position entry >>= (·.writeAll writes) :
        Except (Fault R) (RowBuffer α n)) := rfl

theorem writeAll_append (buffer : RowBuffer α n) (writes writes' : List (Int × Entry n α)) :
    buffer.writeAll (writes ++ writes') =
      (buffer.writeAll writes >>= (·.writeAll writes') : Except (Fault R) (RowBuffer α n)) :=
  List.foldlM_append

variable (pointer) in
/-- Writing entries to the slots that come next, whatever they hold. -/
theorem writeAll_next (hwidth : n ≤ width) (entries : List (Entry n α))
    (front tail : List (Option (Entry n α))) (hroom : entries.length ≤ tail.length) :
    (⟨pointer, width, (front ++ tail).toArray⟩ : RowBuffer α n).writeAll
        (placed front.length entries) =
      (.ok ⟨pointer, width, (front ++ (entries.map some ++ tail.drop entries.length)).toArray⟩ :
        Except (Fault R) (RowBuffer α n)) := by
  induction entries generalizing front tail with
  | nil => simp [placed, writeAll_nil]
  | cons entry entries ih =>
    obtain _ | ⟨slot, tail⟩ := tail
    · cases hroom
    · -- after one write, one more slot is in front and the next position comes after it
      rw [placed_cons, writeAll_cons, write_next hwidth]
      have hrest := ih (front ++ [some entry]) tail (Nat.le_of_succ_le_succ hroom)
      simp only [List.length_append, List.append_assoc, List.singleton_append] at hrest
      exact hrest

/-- Writing entries to the free slots that come next. -/
theorem writeAll_placed (hwidth : n ≤ width) (entries done : List (Entry n α)) (free : Nat) :
    (filled pointer width done (entries.length + free)).writeAll (placed done.length entries) =
      (.ok (filled pointer width (done ++ entries) free) : Except (Fault R) (RowBuffer α n)) := by
  have hnext := writeAll_next (R := R) pointer hwidth entries (done.map some)
    (List.replicate (entries.length + free) none) (by simp)
  rw [List.length_map, List.drop_replicate, Nat.add_sub_cancel_left, ← List.append_assoc,
    ← List.map_append] at hnext
  exact hnext

theorem pointer_write {buffer buffer' : RowBuffer α n} {position : Int} {entry : Entry n α}
    (h : buffer.write position entry = (.ok buffer' : Except (Fault R) (RowBuffer α n))) :
    buffer'.pointer = buffer.pointer := by
  unfold write at h
  split at h
  · cases h
  · split at h
    · cases h
      rfl
    · cases h

theorem pointer_writeAll (writes : List (Int × Entry n α)) {buffer buffer' : RowBuffer α n}
    (h : buffer.writeAll writes = (.ok buffer' : Except (Fault R) (RowBuffer α n))) :
    buffer'.pointer = buffer.pointer := by
  induction writes generalizing buffer with
  | nil =>
    cases h
    rfl
  | cons write writes ih =>
    rw [writeAll_cons] at h
    cases hfirst : (buffer.write write.1 write.2 : Except (Fault R) (RowBuffer α n)) with
    | error fault =>
      rw [hfirst] at h
      cases h
    | ok next =>
      rw [hfirst] at h
      exact (ih h).trans (pointer_write hfirst)

variable (width) in
/-- A row holds its part of the slots. -/
theorem rowSlots_rowEntries {m : Nat} (slots : Fin m → List (Option (Entry n α))) (i : Fin m) :
    (⟨rowPointer slots, width, (rowEntries slots).toArray⟩ : RowBuffer α n).rowSlots i =
      slots i := by
  obtain ⟨pre, post, h⟩ := List.append_of_mem (List.mem_finRange i)
  have hstart : ((rowPointer slots).getD i 0).toNat = (pre.flatMap slots).length := by
    rw [List.getD_eq_getElem?_getD, val_eq_length h, getElem?_rowPointer h]
    rfl
  have hstop : ((rowPointer slots).getD (i + 1) 0).toNat =
      (pre.flatMap slots).length + (slots i).length := by
    rw [List.getD_eq_getElem?_getD, val_eq_length h, getElem?_rowPointer_succ h]
    rfl
  -- the row lies between the rows before and after it
  have hslots : rowEntries slots = pre.flatMap slots ++ (slots i ++ post.flatMap slots) := by
    simp [rowEntries, h]
  show (Array.extract _ ((rowPointer slots).getD i 0).toNat
    ((rowPointer slots).getD (i + 1) 0).toNat).toList = _
  rw [hstart, hstop, Array.toList_extract, hslots, List.extract_eq_take_drop]
  simp

/-- The slots of a row hold its entries. -/
theorem rowSlots_filled {m : Nat} (rows : Fin m → List (Entry n α)) (i : Fin m) :
    (filled (rowPointer rows) width (rowEntries rows) 0).rowSlots i =
      (rows i).map some := by
  have hslots : (rowEntries fun i => (rows i).map some) = (rowEntries rows).map some :=
    List.map_flatMap.symm
  have hpointer : (rowPointer fun i => (rows i).map some) = rowPointer rows := by
    simp only [rowPointer, List.length_map]
  have hrow := rowSlots_rowEntries width (fun i => (rows i).map some) i
  rw [hslots, hpointer] at hrow
  simpa [filled] using hrow

section Rows

variable {m width : Nat} (rows : Fin m → List (Entry n α))

/-- A buffer in which all rows are written one after the other. -/
def ofRows (width : Nat) : RowBuffer α n := filled (rowPointer rows) width (rowEntries rows) 0

theorem reserve_rowPointer : reserve (rowPointer rows) width =
    (.ok (filled (rowPointer rows) width [] (rowEntries rows).length) :
      Except (Fault R) (RowBuffer α n)) :=
  reserve_eq_ok getLast?_rowPointer

theorem finish_ofRows : (ofRows rows width).finish m =
    (.ok (ofRows rows width) : Except (Fault R) (RowBuffer α n)) :=
  if_pos ⟨length_rowPointer, head?_rowPointer⟩

end Rows

end RowBuffer

end Multigrid
