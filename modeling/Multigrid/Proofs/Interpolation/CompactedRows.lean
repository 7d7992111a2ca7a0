import Multigrid.Interpolation.Direct
import Multigrid.Interpolation.Truncation
import Multigrid.Proofs.Interpolation.Columns
import Multigrid.Proofs.Sparse.Compacted

/-!
# The rows of direct interpolation and of truncation

Both builders compact the rows that they read, and count beforehand what they keep.  Truncation
counts with the test that it keeps by.  Direct interpolation counts by one test and keeps by
another one; where the two agree, every slot is written once, and the rows can be read back.

## Main definitions

* `Direct.writes`: the writes of direct interpolation

## Main results

* `Direct.fill_eq_writeAll`: the filling pass as one batch of writes
* `Direct.exists_writes_eq_ok`: the writes meet every slot once
* `Direct.prolongator_eq_ok`: the rows of direct interpolation
* `Truncation.truncated_eq_ok`: the rows of truncation
-/

namespace Multigrid

variable {α S V W R : Type} {m n : Nat}

/-- Entries at consecutive positions, the positions apart. -/
theorem RowBuffer.placed_eq_zip (start : Int) (entries : List (Entry n α)) :
    placed start entries =
      ((List.range entries.length).map fun (t : Nat) => start + t).zip entries := by
  apply List.ext_getElem
  · simp [placed]
  · intro i hi hi'
    simp [placed]

/-! ## Direct interpolation -/

namespace Direct

variable [Arith V]

section

variable (G : StrengthGraph V n) (labels : Vector Label n)

/-- The test that counts agrees with the test that keeps. -/
def CountsKept : Prop :=
  ∀ i, labels.get i ≠ .coarse →
    (strongCoarse G labels i).countP (fun c => (band G labels i).isOutside c.value) =
      (G.row i).countP (isKept labels (band G labels i) i)

end

variable [Arith W] [Storage V V W] {G : StrengthGraph V n} {labels : Vector Label n}

theorem isKept_of_coarse {i : Fin n} (hi : labels.get i = .coarse) (band : Band V)
    (c : Connection V n) : isKept labels band i c = false := by
  simp [isKept, hi]

theorem weights_of_coarse {i : Fin n} (hi : labels.get i = .coarse) (band : Band V) :
    weights G labels band i = [] := by
  have hnone : (G.row i).filter (isKept labels band i) = [] := by
    rw [List.filter_eq_nil_iff]
    intro c _
    simp [isKept_of_coarse hi]
  simp only [weights, hnone, List.map_nil]

theorem length_weights (band : Band V) (i : Fin n) :
    (weights G labels band i).length = (G.row i).countP (isKept labels band i) := by
  simp only [weights, List.length_map, List.countP_eq_length_filter]

/-- Bands whose ends are not given, or given as the ones of the rows. -/
theorem chosenBands_eq {lower upper : Option (Vector V n)}
    (hlower : lower = none ∨ lower = some ((bands G labels).map Band.lower))
    (hupper : upper = none ∨ upper = some ((bands G labels).map Band.upper)) :
    chosenBands G labels lower upper = bands G labels := by
  have hown : ((bands G labels).map Band.lower).zipWith Band.mk ((bands G labels).map Band.upper) =
      bands G labels := by
    ext i hi
    rw [Vector.getElem_zipWith, Vector.getElem_map, Vector.getElem_map]
  rcases hlower with rfl | rfl <;> rcases hupper with rfl | rfl <;> exact hown

theorem get_bands (i : Fin n) : (bands G labels).get i = band G labels i :=
  Vector.getElem_ofFn i.isLt

variable (G labels) in
/-- The rows of the prolongator. -/
def rows (i : Fin n) : List (Entry n V) := row G labels (band G labels i) i

theorem map_rowSizes (h : CountsKept G labels) :
    (rowSizes G labels).toList = (List.finRange n).map fun i => (rows G labels i).length := by
  rw [rowSizes, Vector.toList_ofFn, List.ofFn_eq_map]
  apply List.map_congr_left
  intro i _
  rw [rows, row]
  split_ifs with hi
  · rfl
  · rw [length_weights, ← h i hi]

theorem map_filter_eq_flatMap {β γ : Type} (p : β → Bool) (f : β → γ) (items : List β) :
    (items.filter p).map f = items.flatMap fun b => if p b then [f b] else [] := by
  induction items with
  | nil => rfl
  | cons b items ih =>
    rw [List.filter_cons, List.flatMap_cons, ← ih]
    cases p b <;> rfl

/-- The weights of all rows and the units of coarse ones are the rows in another order. -/
theorem perm_placed_rows {pointer : List Int} (hpointer : pointer = rowPointer (rows G labels))
    {skip : Fin n → Nat} (hskip : skip = fun i => if labels.get i = .coarse then 1 else 0) :
    ((((List.finRange n).flatMap fun i : Fin n =>
          (List.range ((G.row i).countP (isKept labels (band G labels i) i))).map
            fun (t : Nat) => pointer.getD i 0 + skip i + t).zip
        ((List.finRange n).flatMap fun i => weights G labels (band G labels i) i)) ++
      ((List.finRange n).filter (labels.get · = .coarse)).map fun (i : Fin n) =>
        (pointer.getD i 0, (⟨i, 1⟩ : Entry n V))).Perm
      (RowBuffer.placed 0 (rowEntries (rows G labels))) := by
  rw [zip_flatMap _ fun i => by rw [List.length_map, List.length_range, length_weights],
    map_filter_eq_flatMap]
  refine (List.flatMap_append_perm _ _ _).trans (List.Perm.of_eq ?_)
  rw [← RowBuffer.flatMap_placed, ← hpointer]
  congr 1
  funext i
  rw [← length_weights, ← RowBuffer.placed_eq_zip, hskip, rows, row]
  by_cases hi : labels.get i = .coarse
  · rw [weights_of_coarse hi, if_pos hi]
    simp [RowBuffer.placed, hi]
  · simp [hi]

variable (G labels) in
/-- The writes of the filling pass in their order: the weights of all rows, at the slots that a row
pointer has for them, and the units of coarse rows. -/
def writes (stored : Nat) (lower upper : Option (Vector V n)) (pointer : List Int) :
    Except (Fault R) (List (Int × Entry n V)) := do
  let bands := chosenBands G labels lower upper
  let counts := (List.finRange n).map fun i => (G.row i).countP (isKept labels (bands.get i) i)
  let reserved := labels.toList.map fun label => if label = .coarse then 1 else 0
  let slots ← compactedSlots (leadingCounts stored counts) pointer reserved
  return slots.zip ((List.finRange n).flatMap fun i => weights G labels (bands.get i) i) ++
    ((List.finRange n).filter (labels.get · = .coarse)).map fun (i : Fin n) =>
      (pointer.getD i 0, ⟨i, 1⟩)

/-- The filling pass reserves slots, makes its writes and accepts the buffer. -/
theorem fill_eq_writeAll (stored : Nat) (lower upper : Option (Vector V n)) (pointer : List Int)
    (width : Nat) :
    fill G labels stored lower upper pointer width = (do
      let buffer ← RowBuffer.reserve pointer width
      let buffer ← buffer.writeAll (← writes G labels stored lower upper pointer)
      buffer.finish n : Except (Fault R) (RowBuffer V n)) := by
  simp only [fill, writes, bind_assoc, pure_bind, RowBuffer.writeAll_append]

section Bands

variable {lower upper : Option (Vector V n)}
  (hlower : lower = none ∨ lower = some ((bands G labels).map Band.lower))
  (hupper : upper = none ∨ upper = some ((bands G labels).map Band.upper))

include hlower hupper

/-- The writes meet the slots of all rows, each once. -/
theorem exists_writes_eq_ok : ∃ planned,
    writes G labels n lower upper (rowPointer (rows G labels)) =
      (.ok planned : Except (Fault R) (List (Int × Entry n V))) ∧
    planned.Perm (RowBuffer.placed 0 (rowEntries (rows G labels))) := by
  have hreserved : (labels.toList.map fun label => if label = .coarse then (1 : Int) else 0) =
      (List.finRange n).map fun i => ((if labels.get i = .coarse then 1 else 0 : Nat) : Int) := by
    rw [toList_eq_map_get, List.map_map]
    apply List.map_congr_left
    intro i _
    rw [Function.comp_apply]
    split_ifs <;> rfl
  have hslots := compactedSlots_eq_ok (R := R)
    (fun i => (G.row i).countP (isKept labels (band G labels i) i))
    (fun i => if labels.get i = .coarse then 1 else 0) (fun i => (rows G labels i).length)
    fun i => by
      rw [rows, row, ← length_weights]
      by_cases hi : labels.get i = .coarse
      · simp [hi, weights_of_coarse]
      · simp [hi]
  simp only [writes, chosenBands_eq hlower hupper, get_bands, hreserved, leadingCounts_map]
  exact ⟨_, bind_eq_ok hslots rfl, perm_placed_rows rfl rfl⟩

/-- The filling pass fills all slots with the rows of all points. -/
theorem fill_eq_ok : fill G labels n lower upper (rowPointer (rows G labels)) n =
    (.ok (RowBuffer.ofRows (rows G labels) n) : Except (Fault R) (RowBuffer V n)) := by
  obtain ⟨planned, hplanned, hperm⟩ := exists_writes_eq_ok (R := R) hlower hupper
  rw [fill_eq_writeAll]
  exact bind_eq_ok (RowBuffer.reserve_rowPointer _) (bind_eq_ok hplanned
    (bind_eq_ok (RowBuffer.writeAll_rows _ (Nat.le_refl n) hperm) (RowBuffer.finish_ofRows _)))

end Bands

theorem rowPointer_rows (h : CountsKept G labels) :
    rowPointer (rows G labels) = runningTotals ((rowSizes G labels).toList.map Int.ofNat) := by
  rw [map_rowSizes h, rowPointer]

/-- Direct interpolation fills all slots with the rows of all points. -/
theorem prolongator_eq_ok (h : CountsKept G labels) :
    prolongator G labels n =
      (.ok (RowBuffer.ofRows (rows G labels) n) : Except (Fault R) (RowBuffer V n)) := by
  rw [prolongator, ← rowPointer_rows h]
  exact fill_eq_ok (.inr rfl) (.inr rfl)

theorem coarse_of_mem_rows {i : Fin n} {e : Entry n V} (he : e ∈ rows G labels i) :
    labels.get e.column = .coarse := by
  rw [rows, row] at he
  split_ifs at he with hi
  · obtain rfl := List.mem_singleton.mp he
    exact hi
  · simp only [weights, List.mem_map, List.mem_filter, isKept, Bool.and_eq_true,
      decide_eq_true_eq] at he
    obtain ⟨c, ⟨-, ⟨⟨-, hcoarse⟩, -⟩, -⟩, rfl⟩ := he
    exact hcoarse

variable (G labels) in
/-- The rows of direct interpolation with the coarse points numbered. -/
theorem map_row_coarseColumns_rows (i : Fin n) :
    ((coarseColumns labels (RowBuffer.ofRows (rows G labels) n)).row i).map
        (fun e => (e.column.val, e.value)) =
      (rows G labels i).map fun e => ((coarseNumbers labels).get e.column, e.value) :=
  map_row_coarseColumns (RowBuffer.rowSlots_filled (rows G labels) i) fun _ => coarse_of_mem_rows

end Direct

/-! ## Truncation -/

namespace Truncation

variable [Arith W] [Storage S V W]

/-- The truncated rows. -/
def rows (P : SparseMatrix S m n) (ratio : W) (i : Fin m) : List (Entry n S) := row ratio (P.row i)

theorem length_rows (P : SparseMatrix S m n) (ratio : W) (i : Fin m) :
    (rows P ratio i).length = (kept ratio (P.row i)).length :=
  List.length_map _

section Valid

variable (P : SparseMatrix S m n) {ratio : W} (hratio : 0 ≤ ratio ∧ ratio ≤ 1)

include hratio

/-- The lengths that are counted are the ones of the truncated rows. -/
theorem rowSizes_eq_ok :
    rowSizes P ratio = .ok ((List.finRange m).map fun i => (rows P ratio i).length) := by
  simp only [length_rows]
  exact bind_eq_ok (if_pos hratio) rfl

/-- With the row pointer of these lengths, the truncated rows fill all slots. -/
theorem fill_eq_ok : fill P ratio m (rowPointer (rows P ratio)) =
    (.ok (RowBuffer.ofRows (rows P ratio) n) : Except (Fault W) (RowBuffer S n)) := by
  have hcheck : checkRatio ratio = (.ok () : Except (Fault W) Unit) := if_pos hratio
  have hpointer : runningTotals (((List.finRange m).map fun i =>
      (kept ratio (P.row i)).length).map Int.ofNat) = rowPointer (rows P ratio) := by
    simp only [rowPointer, length_rows]
  have hreserved : List.replicate m (0 : Int) =
      (List.finRange m).map fun _ => ((0 : Nat) : Int) := by
    rw [List.map_const', List.length_finRange]
    rfl
  have hslots := compactedSlots_eq_ok (R := W) (fun i => (kept ratio (P.row i)).length)
    (fun _ => 0) (fun i => (kept ratio (P.row i)).length) fun i => Nat.add_zero _
  rw [hpointer, ← hreserved] at hslots
  have hwrites : ((List.finRange m).flatMap fun i => (List.range (kept ratio (P.row i)).length).map
      fun (t : Nat) => (rowPointer (rows P ratio)).getD i 0 + ((0 : Nat) : Int) + t).zip
        ((List.finRange m).flatMap (rows P ratio)) =
      RowBuffer.placed 0 (rowEntries (rows P ratio)) := by
    rw [zip_flatMap _ fun i => by rw [List.length_map, List.length_range, length_rows],
      ← RowBuffer.flatMap_placed]
    congr 1
    funext i
    rw [← length_rows, ← RowBuffer.placed_eq_zip]
    simp
  have hwrite := RowBuffer.writeAll_rows (R := W) (rows P ratio) (Nat.le_refl n)
    (List.Perm.of_eq hwrites)
  simp only [fill, leadingCounts_map]
  exact bind_eq_ok hcheck (bind_eq_ok (RowBuffer.reserve_rowPointer _)
    (bind_eq_ok hslots (bind_eq_ok hwrite (RowBuffer.finish_ofRows _))))

/-- Truncation fills all slots with the truncated rows. -/
theorem truncated_eq_ok : truncated P ratio m =
    (.ok (.ofRows (rows P ratio)) : Except (Fault W) (SparseMatrix S m n)) := by
  refine bind_eq_ok (rowSizes_eq_ok P hratio) (bind_eq_ok (fill_eq_ok P hratio) ?_)
  rw [RowBuffer.toMatrix_ofRows]
  rfl

end Valid

end Truncation

end Multigrid
