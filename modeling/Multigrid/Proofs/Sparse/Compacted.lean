import Multigrid.Proofs.Sparse.RowBuffer

/-!
# Compacting rows

A builder that compacts rows takes the slots of all entries from the row pointer at once, and may
leave the leading slots of some rows to a second batch of writes.  As long as every row has as many
slots as entries, the slots of both batches are all different.  Writes to different slots may change
places, so the rows are written as if they came one after the other.

## Main results

* `compactedSlots_eq_ok`: the slots of rows that fit
* `RowBuffer.writeAll_perm`: the order of writes to different slots
* `RowBuffer.writeAll_of_perm`: the writes of all rows in some order
-/

namespace Multigrid

variable {α β γ R : Type} {n : Nat}

/-! ## Slots -/

theorem gaps_runningTotals (counts : List Int) : gaps (runningTotals counts) = counts := by
  have hfrom (counts : List Int) (a : Int) :
      gaps (counts.scanl (· + ·) a) = counts := by
    induction counts generalizing a with
    | nil => rfl
    | cons count counts ih =>
      have hrest := ih (a + count)
      cases counts with
      | nil => simp [gaps]
      | cons next counts =>
        simp only [gaps, List.scanl_cons, List.tail_cons, List.zipWith_cons_cons] at hrest ⊢
        rw [hrest]
        congr 1
        omega
  exact hfrom counts 0

theorem sumEach_eq_ok {xs ys : List Int} (h : xs.length = ys.length) :
    sumEach xs ys = (.ok (List.zipWith (· + ·) xs ys) : Except (Fault R) (List Int)) :=
  if_pos h

theorem leadingCounts_map (count : Fin n → Nat) :
    leadingCounts n ((List.finRange n).map count) = (List.finRange n).map count := by
  apply List.ext_getElem
  · simp [leadingCounts]
  · intro i hi hi'
    have hlt : i < n := by simpa using hi'
    simp only [leadingCounts, List.getElem_map, List.getElem_range, List.getElem_finRange]
    simp [Array.getD, hlt]

theorem zip_flatMap (items : List γ) {f : γ → List α} {g : γ → List β}
    (h : ∀ c, (f c).length = (g c).length) :
    (items.flatMap f).zip (items.flatMap g) = items.flatMap fun c => (f c).zip (g c) := by
  induction items with
  | nil => rfl
  | cons c items ih =>
    rw [List.flatMap_cons, List.flatMap_cons, List.flatMap_cons, List.zip_append (h c), ih]

theorem zip_finRange {xs : List α} (blank : α) (hlength : n ≤ xs.length) (f : Fin n → β)
    (g : Fin n → γ) :
    (xs.zip ((List.finRange n).map f)).zip ((List.finRange n).map g) =
      (List.finRange n).map fun i : Fin n => ((xs.getD i blank, f i), g i) := by
  apply List.ext_getElem
  · simp
    omega
  · intro i hi hi'
    have hlt : i < xs.length := by
      simp at hi'
      omega
    simp [List.getD_eq_getElem?_getD, List.getElem?_eq_getElem hlt]

/-- The slots of rows that have as many slots as entries, the reserved ones included. -/
theorem compactedSlots_eq_ok (count skip size : Fin n → Nat)
    (h : ∀ i, count i + skip i = size i) :
    compactedSlots ((List.finRange n).map count)
        (runningTotals (((List.finRange n).map size).map Int.ofNat))
        ((List.finRange n).map fun i => (skip i : Int)) =
      (.ok ((List.finRange n).flatMap fun i => (List.range (count i)).map fun (t : Nat) =>
        (runningTotals (((List.finRange n).map size).map Int.ofNat)).getD i 0 + skip i + t) :
        Except (Fault R) (List Int)) := by
  have hlengths : List.zipWith (· + ·) (((List.finRange n).map count).map Int.ofNat)
      ((List.finRange n).map fun i => (skip i : Int)) =
        ((List.finRange n).map size).map Int.ofNat := by
    rw [List.map_map, List.map_map, List.zipWith_map, List.zipWith_self]
    apply List.map_congr_left
    intro i _
    simp [← h i]
  have hout : n ≤ (runningTotals (((List.finRange n).map size).map Int.ofNat)).length := by
    rw [length_runningTotals, List.length_map, List.length_finRange]
    omega
  rw [compactedSlots, sumEach_eq_ok (by simp), hlengths, gaps_runningTotals]
  simp only [zip_finRange 0 hout, List.flatMap_map]
  exact if_neg (not_not.mpr rfl)

/-! ## Writes -/

namespace RowBuffer

variable {buffer : RowBuffer α n}

/-- A write to a slot of the buffer. -/
def Fits (buffer : RowBuffer α n) (position : Int) (entry : Entry n α) : Prop :=
  0 ≤ position ∧ position < buffer.slots.size ∧ entry.column < buffer.width

theorem write_eq_ok {position : Int} {entry : Entry n α} (h : buffer.Fits position entry) :
    buffer.write position entry = (.ok { buffer with
      slots := buffer.slots.setIfInBounds position.toNat (some entry) } :
        Except (Fault R) (RowBuffer α n)) := by
  obtain ⟨hlow, hhigh, hcolumn⟩ := h
  have hslot : slotAt? buffer.slots.size position = some position.toNat := by
    simp only [slotAt?, if_neg (Int.not_lt.mpr hlow)]
    exact if_pos ⟨hlow, hhigh⟩
  rw [write, if_neg (Nat.not_le.mpr hcolumn), hslot]

theorem Fits.write {position position' : Int} {entry entry' : Entry n α}
    (h : buffer.Fits position entry) :
    ({ buffer with slots := buffer.slots.setIfInBounds position'.toNat (some entry') } :
      RowBuffer α n).Fits position entry := by
  obtain ⟨hlow, hhigh, hcolumn⟩ := h
  exact ⟨hlow, by simpa using hhigh, hcolumn⟩

/-- Writes to different slots may be made in any order. -/
theorem writeAll_perm {writes writes' : List (Int × Entry n α)} (hperm : writes.Perm writes')
    (hnodup : (writes.map Prod.fst).Nodup) (hfits : ∀ w ∈ writes, buffer.Fits w.1 w.2) :
    buffer.writeAll writes = (buffer.writeAll writes' : Except (Fault R) (RowBuffer α n)) := by
  induction hperm generalizing buffer with
  | nil => rfl
  | cons w _ ih =>
    rw [List.map_cons, List.nodup_cons] at hnodup
    rw [writeAll_cons, writeAll_cons, write_eq_ok (hfits w (by simp))]
    exact ih hnodup.2 fun w' hw' => (hfits w' (List.mem_cons_of_mem w hw')).write
  | swap w w' rest =>
    have hw := hfits w (by simp)
    have hw' := hfits w' (by simp)
    have hne : w'.1 ≠ w.1 := by
      simp only [List.map_cons, List.nodup_cons, List.mem_cons, not_or] at hnodup
      exact hnodup.1.1
    have hslot : w'.1.toNat ≠ w.1.toNat := by
      have h1 := hw.1
      have h2 := hw'.1
      omega
    rw [writeAll_cons, writeAll_cons, write_eq_ok hw', write_eq_ok hw]
    show writeAll _ (w :: rest) = writeAll _ (w' :: rest)
    rw [writeAll_cons, writeAll_cons, write_eq_ok hw.write, write_eq_ok hw'.write]
    show writeAll _ rest = writeAll _ rest
    simp only [Array.setIfInBounds_comm _ _ hslot]
  | trans h₁ h₂ ih₁ ih₂ =>
    exact (ih₁ hnodup hfits).trans
      (ih₂ ((h₁.map Prod.fst).nodup hnodup) fun w hw => hfits w (h₁.mem_iff.mpr hw))

/-- Writing the entries of all rows in some order, each to its own slot. -/
theorem writeAll_of_perm {pointer : List Int} {width : Nat} (hwidth : n ≤ width)
    {entries : List (Entry n α)} {writes : List (Int × Entry n α)}
    (hperm : writes.Perm (placed 0 entries)) :
    (filled pointer width [] entries.length).writeAll writes =
      (.ok (filled pointer width entries 0) : Except (Fault R) (RowBuffer α n)) := by
  have hplaced : (filled pointer width [] (entries.length + 0)).writeAll (placed 0 entries) =
      (.ok (filled pointer width ([] ++ entries) 0) : Except (Fault R) (RowBuffer α n)) :=
    writeAll_placed hwidth entries [] 0
  have hpositions := map_fst_placed 0 entries
  refine (writeAll_perm hperm ?_ ?_).trans hplaced
  · rw [(hperm.map Prod.fst).nodup_iff, hpositions]
    refine List.nodup_range.map fun t t' h => ?_
    omega
  · intro w hw
    have hposition : w.1 ∈ (placed 0 entries).map Prod.fst :=
      List.mem_map_of_mem (hperm.mem_iff.mp hw)
    rw [hpositions] at hposition
    obtain ⟨t, ht, hwt⟩ := List.mem_map.mp hposition
    have hlt := List.mem_range.mp ht
    refine ⟨by omega, ?_, Nat.lt_of_lt_of_le w.2.column.isLt hwidth⟩
    simp only [filled, List.map_nil, List.nil_append, List.size_toArray, List.length_replicate]
    omega

section Rows

variable {m width : Nat} (rows : Fin m → List (Entry n α))

theorem writeAll_rows (hwidth : n ≤ width) {writes : List (Int × Entry n α)}
    (hperm : writes.Perm (placed 0 (rowEntries rows))) :
    (filled (rowPointer rows) width [] (rowEntries rows).length).writeAll writes =
      (.ok (ofRows rows width) : Except (Fault R) (RowBuffer α n)) :=
  writeAll_of_perm hwidth hperm

theorem toMatrix_ofRows : (ofRows rows width).toMatrix m = .ofRows rows := by
  have hrow (i : Fin m) : ((ofRows rows width).rowSlots i).filterMap id = rows i := by
    rw [ofRows, rowSlots_filled, List.filterMap_map]
    simp
  simp only [toMatrix, hrow]

end Rows

end RowBuffer

end Multigrid
