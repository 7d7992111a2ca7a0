import Multigrid.Proofs.Interpolation.Structure
import Multigrid.Proofs.Table.Mapped
import Multigrid.Proofs.Table.Values

/-!
# Rows under any capacity

A capacity that is given may be too small, and then there is no prolongator.  Where there is one,
its rows do not depend on the capacity: the table of a point holds the reached points whatever its
size, so the lengths that are counted are the lengths that are written.

## Main results

* `Extended.of_reachTable_eq_ok`: the table of a point
* `Extended.exists_rows_of_rowSizes_eq_ok`: rows whose lengths can be counted
* `Extended.exists_rows_of_prolongator_eq_ok`: the rows of a prolongator
* `Extended.hasReachedColumns_of_prolongator_eq_ok`: their columns
* `Extended.exists_prolongator_eq_ok`: there is a prolongator if no capacity is given
* `Extended.map_prolongator_eq`: whether there is a prolongator
-/

namespace Multigrid

namespace Extended

variable {α V W R : Type} {n : Nat}

/-! ## Tables -/

section Table

variable {G : StrengthGraph α n} {labels : Vector Label n} {firstOnly : Bool} {capacity : Int}
  {i : Fin n}

theorem ne_reservedKey_of_mem_reachedKeys {key : Int}
    (h : key ∈ reachedKeys G labels firstOnly i) : key ≠ ProbingTable.reservedKey := by
  obtain ⟨l, -, rfl⟩ := List.mem_map.mp h
  rw [ProbingTable.reservedKey]
  omega

/-- A table that could be made for a point holds the points that it reaches. -/
theorem of_reachTable_eq_ok {blank : V} {t : ProbingTable V}
    (h : reachTable G labels firstOnly capacity blank i =
      (.ok t : Except (Fault R) (ProbingTable V))) :
    t.IsValid ∧ t.storedKeys = (reachedKeys G labels firstOnly i).toFinset ∧ t.IsBlank blank := by
  obtain ⟨t₀, hcreate, hinsert⟩ := exists_of_bind_eq_ok h
  obtain ⟨count, hpos, rfl⟩ := ProbingTable.exists_of_create_eq_ok hcreate
  have hspec := ProbingTable.isValid_empty.of_insertAll
    (fun key => ne_reservedKey_of_mem_reachedKeys) ProbingTable.isBlank_empty hinsert
  rwa [ProbingTable.storedKeys_empty, Finset.empty_union] at hspec

theorem eq_length_of_rowSize_eq_ok {size : Nat}
    (h : rowSize G labels firstOnly capacity i = (.ok size : Except (Fault R) Nat)) :
    size = (rowPoints G labels firstOnly i).length := by
  unfold rowSize at h
  rw [rowPoints]
  split_ifs at h ⊢ with hi
  · cases h
    rfl
  · obtain ⟨t, ht, hsize⟩ := exists_of_bind_eq_ok h
    cases hsize
    obtain ⟨hvalid, hstored, -⟩ := of_reachTable_eq_ok ht
    rw [← hvalid.length_sortedKeys, sortedKeys_eq_map_reachedPoints hvalid hstored,
      List.length_map]

theorem eq_map_of_mapM_eq_ok {β γ ε : Type} {f : β → Except ε γ} {g : β → γ}
    (hf : ∀ b c, f b = .ok c → c = g b) {bs : List β} {cs : List γ} (h : bs.mapM f = .ok cs) :
    cs = bs.map g := by
  induction bs generalizing cs with
  | nil =>
    cases h
    rfl
  | cons b bs ih =>
    rw [List.mapM_cons] at h
    obtain ⟨c, hc, h⟩ := exists_of_bind_eq_ok h
    obtain ⟨rest, hrest, h⟩ := exists_of_bind_eq_ok h
    cases h
    rw [List.map_cons, hf b c hc, ih hrest]

theorem eq_map_of_rowSizes_eq_ok {given : Option Int} {sizes : List Nat}
    (h : rowSizes G labels firstOnly given .full = (.ok sizes : Except (Fault R) (List Nat))) :
    sizes = (List.finRange n).map fun i => (rowPoints G labels firstOnly i).length := by
  obtain ⟨sizes', hsizes, h⟩ := exists_of_bind_eq_ok h
  obtain ⟨-, -, h⟩ := exists_of_bind_eq_ok h
  cases h
  exact eq_map_of_mapM_eq_ok (fun _ _ => eq_length_of_rowSize_eq_ok) hsizes

theorem exists_of_mapM_eq_ok {β γ ε : Type} {f : β → Except ε γ} {bs : List β} {cs : List γ}
    (h : bs.mapM f = .ok cs) : ∀ b ∈ bs, ∃ c, f b = .ok c := by
  induction bs generalizing cs with
  | nil => simp
  | cons b bs ih =>
    rw [List.mapM_cons] at h
    obtain ⟨c, hc, h⟩ := exists_of_bind_eq_ok h
    obtain ⟨rest, hrest, -⟩ := exists_of_bind_eq_ok h
    intro b' hb'
    rcases List.mem_cons.mp hb' with rfl | hb'
    · exact ⟨c, hc⟩
    · exact ih hrest b' hb'

/-- The points that are reached fit into a table or not whatever values it starts with. -/
theorem reachTable_map {V' : Type} (f : V → V') (G : StrengthGraph α n) (labels : Vector Label n)
    (firstOnly : Bool) (capacity : Int) (blank : V) (i : Fin n) :
    (reachTable G labels firstOnly capacity (f blank) i : Except (Fault R) (ProbingTable V')) =
      (reachTable G labels firstOnly capacity blank i).map (ProbingTable.mapValues f) := by
  unfold reachTable
  rw [ProbingTable.create_mapValues]
  cases (ProbingTable.create capacity (some i) blank : Except (Fault R) (ProbingTable V)) with
  | error fault => rfl
  | ok t => exact ProbingTable.insertAll_mapValues f _ t

end Table

/-! ## Rows -/

section Rows

variable [Arith V] [Arith W] [Storage V V W] {G : StrengthGraph V n} {labels : Vector Label n}
  {diagonal : Vector W n} {firstOnly : Bool} {i : Fin n}

/-- A row that is not the one of a coarse point has the weights of the table of its point. -/
theorem exists_table_of_row_eq_ok {capacity : Int} {entries : List (Entry n V)}
    (hi : labels.get i ≠ .coarse) (h : row G labels diagonal firstOnly capacity i =
      (.ok entries : Except (Fault R) (List (Entry n V)))) :
    ∃ t : ProbingTable V, t.IsValid ∧
      t.storedKeys = (reachedKeys G labels firstOnly i).toFinset ∧ t.IsBlank 0 ∧
      entries = weights G labels diagonal i t := by
  unfold row at h
  rw [if_neg hi] at h
  obtain ⟨t, ht, h⟩ := exists_of_bind_eq_ok h
  cases h
  obtain ⟨hvalid, hstored, hblank⟩ := of_reachTable_eq_ok ht
  exact ⟨t, hvalid, hstored, hblank, rfl⟩

theorem map_column_of_row_eq_ok {capacity : Int} {entries : List (Entry n V)}
    (h : row G labels diagonal firstOnly capacity i =
      (.ok entries : Except (Fault R) (List (Entry n V)))) :
    entries.map Entry.column = rowPoints G labels firstOnly i := by
  by_cases hi : labels.get i = .coarse
  · unfold row at h
    rw [if_pos hi] at h
    cases h
    rw [rowPoints, if_pos hi]
    rfl
  · obtain ⟨t, hvalid, hstored, -, rfl⟩ := exists_table_of_row_eq_ok hi h
    rw [rowPoints, if_neg hi, map_column_weights diagonal
      (sortedKeys_eq_map_reachedPoints hvalid hstored)]

theorem eq_unit_of_row_eq_ok {capacity : Int} {entries : List (Entry n V)}
    (hi : labels.get i = .coarse) (h : row G labels diagonal firstOnly capacity i =
      (.ok entries : Except (Fault R) (List (Entry n V)))) : entries = [⟨i, 1⟩] := by
  unfold row at h
  rw [if_pos hi] at h
  cases h
  rfl

/-- A row can be built if its length can be counted. -/
theorem exists_row_of_rowSize_eq_ok (diagonal : Vector W n) {capacity : Int} {size : Nat}
    (h : rowSize G labels firstOnly capacity i = (.ok size : Except (Fault R) Nat)) :
    ∃ entries, row G labels diagonal firstOnly capacity i =
      (.ok entries : Except (Fault R) (List (Entry n V))) := by
  unfold rowSize at h
  unfold row
  split_ifs at h ⊢
  · exact ⟨_, rfl⟩
  · obtain ⟨t, ht, -⟩ := exists_of_bind_eq_ok h
    -- lengths are counted in a table without values
    have htable := reachTable_map (R := R) (fun _ => (0 : V)) G labels firstOnly capacity () i
    rw [ht] at htable
    rw [htable]
    exact ⟨_, rfl⟩

variable {given : Option Int}

/-- The rows can be built if their lengths can be counted, and they have these lengths. -/
theorem exists_rows_of_rowSizes_eq_ok (diagonal : Vector W n) {sizes : List Nat}
    (h : rowSizes G labels firstOnly given .full = (.ok sizes : Except (Fault R) (List Nat))) :
    ∃ rows : Fin n → List (Entry n V),
      (∀ i, row G labels diagonal firstOnly (chosenCapacity G labels firstOnly given) i =
        (.ok (rows i) : Except (Fault R) (List (Entry n V)))) ∧
      sizes = (List.finRange n).map fun i => (rows i).length := by
  obtain ⟨_, hsizes, -⟩ := exists_of_bind_eq_ok h
  have hrows (i : Fin n) : ∃ entries,
      row G labels diagonal firstOnly (chosenCapacity G labels firstOnly given) i =
        (.ok entries : Except (Fault R) (List (Entry n V))) := by
    obtain ⟨size, hsize⟩ := exists_of_mapM_eq_ok hsizes i (List.mem_finRange i)
    exact exists_row_of_rowSize_eq_ok diagonal hsize
  choose rows hrow using hrows
  refine ⟨rows, hrow, ?_⟩
  rw [eq_map_of_rowSizes_eq_ok h]
  simp only [← map_column_of_row_eq_ok (hrow _), List.length_map]

variable {buffer : RowBuffer V n}

/-- A prolongator has the rows of all points, one after the other. -/
theorem exists_rows_of_prolongator_eq_ok
    (h : prolongator G labels diagonal firstOnly given =
      (.ok buffer : Except (Fault R) (RowBuffer V n))) :
    ∃ rows : Fin n → List (Entry n V),
      (∀ i, row G labels diagonal firstOnly (chosenCapacity G labels firstOnly given) i =
        (.ok (rows i) : Except (Fault R) (List (Entry n V)))) ∧
      buffer = RowBuffer.ofRows rows n := by
  obtain ⟨sizes, hsizes, hfill⟩ := exists_of_bind_eq_ok h
  obtain ⟨rows, hrow, rfl⟩ := exists_rows_of_rowSizes_eq_ok diagonal hsizes
  have hrows : fill G labels diagonal firstOnly given .full (rowPointer rows) n = _ :=
    fill_eq_ok hrow
  exact ⟨rows, hrow, Except.ok.inj (hfill.symm.trans hrows)⟩

/-- The rows of a prolongator with its coarse points numbered. -/
theorem map_row_of_rows {rows : Fin n → List (Entry n V)} {capacity : Int}
    (hrow : ∀ i, row G labels diagonal firstOnly capacity i =
      (.ok (rows i) : Except (Fault R) (List (Entry n V)))) (i : Fin n) :
    ((coarseColumns labels (RowBuffer.ofRows rows n)).row i).map
        (fun e => (e.column.val, e.value)) =
      (rows i).map fun e => ((coarseNumbers labels).get e.column, e.value) := by
  apply map_row_coarseColumns (RowBuffer.rowSlots_filled rows i)
  intro e he
  have hmem : e.column ∈ rowPoints G labels firstOnly i := by
    rw [← map_column_of_row_eq_ok (hrow i)]
    exact List.mem_map_of_mem he
  exact coarse_of_mem_rowPoints hmem

/-- The columns of a prolongator do not depend on the capacity. -/
theorem hasReachedColumns_of_prolongator_eq_ok
    (h : prolongator G labels diagonal firstOnly given =
      (.ok buffer : Except (Fault R) (RowBuffer V n))) :
    HasReachedColumns G labels firstOnly (coarseColumns labels buffer) := by
  obtain ⟨rows, hrow, rfl⟩ := exists_rows_of_prolongator_eq_ok h
  exact hasReachedColumns (fun i => map_column_of_row_eq_ok (hrow i))
    (fun i hi => eq_unit_of_row_eq_ok hi (hrow i)) (map_row_of_rows hrow)

/-- There is a prolongator if all lengths can be counted. -/
theorem exists_prolongator_of_rowSizes_eq_ok (diagonal : Vector W n) {sizes : List Nat}
    (h : rowSizes G labels firstOnly given .full = (.ok sizes : Except (Fault R) (List Nat))) :
    ∃ buffer, prolongator G labels diagonal firstOnly given =
      (.ok buffer : Except (Fault R) (RowBuffer V n)) := by
  obtain ⟨rows, hrow, rfl⟩ := exists_rows_of_rowSizes_eq_ok diagonal h
  exact ⟨RowBuffer.ofRows rows n, bind_eq_ok h (fill_eq_ok hrow)⟩

variable (G labels diagonal firstOnly) in
/-- A capacity that the graph asks for is large enough. -/
theorem exists_prolongator_eq_ok (hn : n ≤ 0x8000000000000000) :
    ∃ buffer, prolongator G labels diagonal firstOnly none =
      (.ok buffer : Except (Fault R) (RowBuffer V n)) :=
  exists_prolongator_of_rowSizes_eq_ok diagonal (rowSizes_eq G labels firstOnly hn)

/-- Whether there is a prolongator, and what is missing if not, shows when lengths are counted. -/
theorem map_prolongator_eq (diagonal : Vector W n) (given : Option Int) :
    (prolongator G labels diagonal firstOnly given : Except (Fault R) (RowBuffer V n)).map
        (fun _ => ()) =
      (rowSizes G labels firstOnly given .full).map fun _ => () := by
  cases hsizes : (rowSizes G labels firstOnly given .full : Except (Fault R) (List Nat)) with
  | error fault =>
    rw [prolongator, hsizes]
    rfl
  | ok sizes =>
    obtain ⟨buffer, hbuffer⟩ := exists_prolongator_of_rowSizes_eq_ok diagonal hsizes
    rw [hbuffer]
    rfl

end Rows

end Extended

end Multigrid
