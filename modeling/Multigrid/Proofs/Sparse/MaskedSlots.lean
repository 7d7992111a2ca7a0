import Multigrid.Proofs.Sparse.RowPointer

/-!
# Scattering selected slots

Selected slots of a structure by rows go to the places of another one.  The position of a slot comes
from a count of the selected slots before it, taken over the whole mask: less the count at the start
of its row it is the number of the slot within the row, and the places of the row begin behind the
ones that it leaves free.

So the positions of a row are consecutive, and with the places that are left free they fill the row,
if the row has as many places as the count and the free ones say.  Empty rows, rows without a
selected slot and rows that leave all their places free are no exceptions.

The number of places of a row is taken in words of 32 bits.  A row with `2 ^ 31` places or more is
refused whatever it holds, but it takes a pointer that starts below zero to have such a row.

## Main definitions

* `IsWord`, `IsScatter`: what is scattered
* `selectedSlots`, `selectedCount`: the selected slots, and their number in a row
* `IsFilledRow`, `freePlaces`: rows with as many places as they need, and places that are left free

## Main results

* `IsScatter.exists_position`: the positions, or the fault
* `IsScatter.positions_tile`: the positions and the places that are left free
* `IsScatter.maskedSlots_eq_compactedSlots`: rows that are compacted
* `IsScatter.maskedSlots_tiles`: which rows are refused, and what the positions are otherwise
-/

namespace Multigrid

variable {R : Type} {n : Nat} {mask : List Bool} {pointer out skips : List Int}

/-- A word of 32 bits. -/
def IsWord (position : Int) : Prop := -0x80000000 ≤ position ∧ position < 0x80000000

/-- A mask over the slots of a row pointer, a pointer of as many rows to the places of the selected
slots, and the number of places that are left free in every row. -/
structure IsScatter (n : Nat) (mask : List Bool) (pointer out skips : List Int) : Prop where
  /-- The rows of the slots. -/
  isRowPointer : IsRowPointer n pointer
  /-- The mask has a flag for every slot. -/
  last_eq : pointer.getD n 0 = mask.length
  /-- Positions of slots are words. -/
  isWord_pointer : ∀ position ∈ pointer, IsWord position
  /-- There is a row of places for every row of slots. -/
  length_out : out.length = n + 1
  /-- The order of the places. -/
  ascending_out : out.Pairwise (· ≤ ·)
  /-- Positions of places are words. -/
  isWord_out : ∀ position ∈ out, IsWord position
  /-- Every row has a number of places that it leaves free. -/
  length_skips : skips.length = n
  /-- That number is not negative. -/
  skips_nonneg : ∀ skip ∈ skips, 0 ≤ skip

/-- The selected slots in storage order. -/
def selectedSlots (mask : List Bool) : List Nat :=
  (List.range mask.length).filter fun slot => mask[slot]? = some true

/-- The number of selected slots before a slot. -/
def selectedBefore (mask : List Bool) (slot : Nat) : Nat := (mask.take slot).count true

/-- The number of selected slots of row `r`. -/
def selectedCount (mask : List Bool) (pointer : List Int) (r : Nat) : Nat :=
  ((mask.take (pointer.getD (r + 1) 0).toNat).drop (pointer.getD r 0).toNat).count true

/-- Row `r` has as many places as selected slots and places that it leaves free, and the number of
them is a word. -/
def IsFilledRow (mask : List Bool) (pointer out skips : List Int) (r : Nat) : Prop :=
  selectedCount mask pointer r + skips.getD r 0 = out.getD (r + 1) 0 - out.getD r 0 ∧
    out.getD (r + 1) 0 - out.getD r 0 < 0x80000000

/-- The places that the rows leave free. -/
def freePlaces (n : Nat) (out skips : List Int) : List Int :=
  (List.range n).flatMap fun r => Int.range (out.getD r 0) (out.getD r 0 + skips.getD r 0)

/-- The position of a slot is found by counting the selected slots of its row, starting behind the
places that the row leaves free. -/
def CountsInRows (n : Nat) (mask : List Bool) (pointer out skips : List Int)
    (position : Nat → Int) : Prop :=
  ∀ r < n, ∀ slot : Nat, pointer.getD r 0 ≤ slot → slot < pointer.getD (r + 1) 0 →
    position slot = out.getD r 0 + skips.getD r 0 +
      (selectedBefore mask slot - selectedBefore mask (pointer.getD r 0).toNat)

/-- The places that a filled row leaves free are its own. -/
theorem getD_add_skips_le {r : Nat} (hrow : IsFilledRow mask pointer out skips r) :
    out.getD r 0 + skips.getD r 0 ≤ out.getD (r + 1) 0 := by
  have hsize := hrow.1
  omega

/-! ## Intervals -/

theorem pairwise_intRange {a b : Int} : (Int.range a b).Pairwise (· < ·) :=
  List.pairwise_map.mpr (List.pairwise_lt_range.imp fun hlt => by omega)

theorem intRange_append {a b c : Int} (hab : a ≤ b) (hbc : b ≤ c) :
    Int.range a b ++ Int.range b c = Int.range a c := by
  have hascending : (Int.range a b ++ Int.range b c).Pairwise (· < ·) := by
    refine List.pairwise_append.mpr ⟨pairwise_intRange, pairwise_intRange, fun x hx y hy => ?_⟩
    exact (Int.mem_range_iff.mp hx).2.trans_le (Int.mem_range_iff.mp hy).1
  refine hascending.eq_of_mem_iff pairwise_intRange fun x => ?_
  rw [List.mem_append, Int.mem_range_iff, Int.mem_range_iff, Int.mem_range_iff]
  omega

/-- Intervals that follow each other are one interval. -/
theorem flatMap_intRange {position : Nat → Int} {n : Nat}
    (h : ∀ r < n, position r ≤ position (r + 1)) :
    ((List.range n).flatMap fun r => Int.range (position r) (position (r + 1))) =
      Int.range (position 0) (position n) := by
  have hfirst {m : Nat} (hm : m ≤ n) : position 0 ≤ position m := by
    induction m with
    | zero => exact le_rfl
    | succ m ih => exact (ih (by omega)).trans (h m hm)
  induction n with
  | zero => simp [Int.range]
  | succ n ih =>
    rw [List.range_succ, List.flatMap_append, ih (fun r hr => h r (by omega))
      (fun hm => hfirst (by omega)), List.flatMap_singleton,
      intRange_append (hfirst (Nat.le_succ n)) (h n (Nat.lt_succ_self n))]

/-! ## Counting selected slots -/

theorem mem_selectedSlots {slot : Nat} : slot ∈ selectedSlots mask ↔ mask[slot]? = some true := by
  simp only [selectedSlots, List.mem_filter, List.mem_range, decide_eq_true_eq,
    and_iff_right_iff_imp]
  exact fun h => (List.getElem?_eq_some_iff.mp h).1

theorem pairwise_selectedSlots : (selectedSlots mask).Pairwise (· < ·) :=
  List.pairwise_lt_range.filter _

theorem selectedBefore_mono {k k' : Nat} (h : k ≤ k') :
    selectedBefore mask k ≤ selectedBefore mask k' :=
  (List.take_sublist_take_left h).count_le true

theorem selectedBefore_succ {slot : Nat} (h : slot ∈ selectedSlots mask) :
    selectedBefore mask (slot + 1) = selectedBefore mask slot + 1 := by
  rw [selectedBefore, List.take_add_one, mem_selectedSlots.mp h, List.count_append]
  rfl

/-- The selected slots are counted without a gap. -/
theorem exists_selectedBefore_eq {k m : Nat} (h : k < selectedBefore mask m) :
    ∃ slot ∈ selectedSlots mask, selectedBefore mask slot = k := by
  -- by induction on the slots up to `m`, the last of which is the one if no earlier slot is
  induction m with
  | zero => simp [selectedBefore] at h
  | succ m ih =>
    by_cases hlt : k < selectedBefore mask m
    · exact ih hlt
    · by_cases hm : m ∈ selectedSlots mask
      · rw [selectedBefore_succ hm] at h
        exact ⟨m, hm, by omega⟩
      · -- a slot that is not selected counts for nothing
        rw [selectedBefore, List.take_add_one, List.count_append] at h
        have hnone : (mask[m]?.toList).count true = 0 := by
          rw [mem_selectedSlots] at hm
          rcases hflag : mask[m]? with _ | (_ | _) <;> simp_all
        exact absurd h (by rw [hnone]; exact hlt)

theorem selectedCount_eq {r : Nat} (h : pointer.getD r 0 ≤ pointer.getD (r + 1) 0) :
    selectedBefore mask (pointer.getD (r + 1) 0).toNat =
      selectedBefore mask (pointer.getD r 0).toNat + selectedCount mask pointer r := by
  have hsplit := List.take_append_drop (pointer.getD r 0).toNat
    (mask.take (pointer.getD (r + 1) 0).toNat)
  rw [List.take_take, min_eq_left (by omega)] at hsplit
  rw [selectedBefore, ← hsplit, List.count_append]
  rfl

/-- The numbers of selected slots before all slots, and of all selected slots. -/
def selectedTotals (mask : List Bool) : List Int :=
  runningTotals (mask.map fun b => if b then 1 else 0)

theorem getElem?_selectedTotals {k : Nat} (h : k ≤ mask.length) :
    (selectedTotals mask)[k]? = some (selectedBefore mask k : Int) := by
  have hflags : (mask.map fun b => if b then (1 : Int) else 0) =
      (mask.map fun b => if b then 1 else 0).map Int.ofNat := by
    rw [List.map_map]
    apply List.map_congr_left
    rintro (_ | _) _ <;> rfl
  have hsum (flags : List Bool) :
      (flags.map fun b => if b then 1 else 0).sum = flags.count true := by
    induction flags with
    | nil => rfl
    | cons b flags ih =>
      rw [List.map_cons, List.sum_cons, ih, List.count_cons, Nat.add_comm]
      cases b <;> rfl
  rw [selectedTotals, hflags, getElem?_runningTotals (by simpa using h), ← List.map_take, hsum,
    selectedBefore]

theorem length_selectedTotals : (selectedTotals mask).length = mask.length + 1 := by
  rw [selectedTotals, runningTotals, List.length_scanl, List.length_map]

theorem itemAtPosition_selectedTotals {position : Int} (hlow : 0 ≤ position)
    (hhigh : position ≤ mask.length) :
    itemAtPosition (selectedTotals mask).toArray position =
      (.ok (selectedBefore mask position.toNat : Int) : Except (Fault R) Int) := by
  have hslot : slotAt? (selectedTotals mask).toArray.size position = some position.toNat := by
    simp only [slotAt?, if_neg (Int.not_lt.mpr hlow), List.size_toArray, length_selectedTotals]
    exact if_pos ⟨hlow, by omega⟩
  rw [itemAtPosition, hslot, Option.bind_some, List.getElem?_toArray,
    getElem?_selectedTotals (by omega)]

/-- The slots with a flag, each with the number of selected slots before it. -/
theorem filter_zipIdx_selectedTotals (mask : List Bool) :
    ((mask.zip (selectedTotals mask)).zipIdx).filter (·.1.1) =
      (selectedSlots mask).map fun slot => ((true, (selectedBefore mask slot : Int)), slot) := by
  have hall : (mask.zip (selectedTotals mask)).zipIdx = (List.range mask.length).map fun slot =>
      ((decide (mask[slot]? = some true), (selectedBefore mask slot : Int)), slot) := by
    apply List.ext_getElem
    · simp [length_selectedTotals]
    · intro slot hslot hslot'
      have hlt : slot < mask.length := by simpa using hslot'
      obtain ⟨hlong, hbefore⟩ := List.getElem?_eq_some_iff.mp (getElem?_selectedTotals hlt.le)
      simp [hbefore, List.getElem?_eq_getElem hlt]
  rw [hall, List.filter_map, selectedSlots]
  apply List.map_congr_left
  intro slot hslot
  simp only [List.mem_filter, Function.comp_apply] at hslot
  rw [hslot.2]

/-! ## The positions of selected slots -/

/-- For every row what leads from a count of selected slots to a position. -/
def rowOffsets (out skips starts : List Int) : List Int :=
  ((out.zip skips).zip starts).map fun ((position, skip), start) => position + skip - start

theorem getElem?_rowOffsets {starts : List Int} {r : Nat} (hout : r < out.length)
    (hskips : r < skips.length) (hstarts : r < starts.length) :
    (rowOffsets out skips starts)[r]? =
      some (out.getD r 0 + skips.getD r 0 - starts.getD r 0) := by
  rw [List.getD_eq_getElem _ _ hout, List.getD_eq_getElem _ _ hskips,
    List.getD_eq_getElem _ _ hstarts,
    List.getElem?_eq_getElem (by simp [rowOffsets, hout, hskips, hstarts])]
  simp [rowOffsets]

namespace IsScatter

variable (h : IsScatter n mask pointer out skips)

include h

theorem pointer_mono {r r' : Nat} (hr : r ≤ r') (hr' : r' ≤ n) :
    pointer.getD r 0 ≤ pointer.getD r' 0 := h.isRowPointer.getD_le_getD hr hr'

theorem out_mono {r r' : Nat} (hr : r ≤ r') (hr' : r' ≤ n) : out.getD r 0 ≤ out.getD r' 0 :=
  getD_le_getD_of_pairwise h.ascending_out hr (by have := h.length_out; omega)

theorem getD_pointer_nonneg {r : Nat} (hr : r ≤ n) : 0 ≤ pointer.getD r 0 :=
  h.isRowPointer.getD_zero.symm.trans_le (h.pointer_mono (Nat.zero_le r) hr)

theorem getD_pointer_le {r : Nat} (hr : r ≤ n) : pointer.getD r 0 ≤ mask.length :=
  (h.pointer_mono hr le_rfl).trans_eq h.last_eq

theorem getD_skips_nonneg {r : Nat} (hr : r < n) : 0 ≤ skips.getD r 0 := by
  rw [List.getD_eq_getElem _ _ (h.length_skips.symm ▸ hr)]
  exact h.skips_nonneg _ (List.getElem_mem _)

/-- The row of a selected slot. -/
theorem exists_row {slot : Nat} (hslot : slot ∈ selectedSlots mask) :
    ∃ r < n, pointer.getD r 0 ≤ slot ∧ slot < pointer.getD (r + 1) 0 := by
  have hlt : slot < mask.length := (List.getElem?_eq_some_iff.mp (mem_selectedSlots.mp hslot)).1
  have hlast := h.last_eq
  exact exists_row_of_le_of_lt (fun r => pointer.getD r 0)
    (h.isRowPointer.getD_zero.trans_le (Int.natCast_nonneg slot)) (by omega)

/-- The counts at the starts of the rows, as far as they are looked up. -/
theorem exists_starts : ∃ starts,
    (if pointer.length < 2 then pure [] else
      pointer.mapM (itemAtPosition (selectedTotals mask).toArray) : Except (Fault R) (List Int)) =
        .ok starts ∧
      n ≤ starts.length ∧
      (∀ r < n, starts.getD r 0 = selectedBefore mask (pointer.getD r 0).toNat) ∧
      gaps starts = (List.range n).map fun r => (selectedCount mask pointer r : Int) := by
  have hlength := h.isRowPointer.length_eq
  by_cases hshort : pointer.length < 2
  · obtain rfl : n = 0 := by omega
    exact ⟨[], if_pos hshort, Nat.zero_le _, fun r hr => absurd hr (Nat.not_lt_zero r), rfl⟩
  · have hmap : pointer.mapM (itemAtPosition (selectedTotals mask).toArray) =
        (.ok (pointer.map fun position => (selectedBefore mask position.toNat : Int)) :
          Except (Fault R) (List Int)) := by
      refine mapM_eq_ok _ fun position hposition => ?_
      obtain ⟨r, hr, rfl⟩ := List.getElem_of_mem hposition
      rw [← List.getD_eq_getElem _ 0 hr]
      exact itemAtPosition_selectedTotals (h.getD_pointer_nonneg (by omega))
        (h.getD_pointer_le (by omega))
    have hget (r : Nat) (hr : r ≤ n) :
        (pointer.map fun position => (selectedBefore mask position.toNat : Int)).getD r 0 =
          selectedBefore mask (pointer.getD r 0).toNat := by
      rw [List.getD_eq_getElem _ _ (by simp; omega), List.getElem_map,
        List.getD_eq_getElem _ _ (by omega)]
    refine ⟨_, (if_neg hshort).trans hmap, by simp; omega, fun r hr => hget r hr.le, ?_⟩
    rw [gaps_eq_map (by rw [List.length_map, hlength])]
    apply List.map_congr_left
    intro r hr
    have hr := List.mem_range.mp hr
    rw [hget r hr.le, hget (r + 1) hr, selectedCount_eq (h.pointer_mono (Nat.le_succ r) hr)]
    push_cast
    omega

/-- The check of the lengths, which is made in words, finds the rows that are not filled. -/
theorem lengths_eq_iff {counts : List Int}
    (hcounts : counts = (List.range n).map fun r => (selectedCount mask pointer r : Int)) :
    List.zipWith (· + ·) counts skips = wordGaps out ↔
      ∀ r < n, IsFilledRow mask pointer out skips r := by
  have hskips : skips = (List.range n).map (skips.getD · 0) := by
    apply List.ext_getElem
    · simp [h.length_skips]
    · intro r hr hr'
      rw [List.getElem_map, List.getElem_range, List.getD_eq_getElem _ _ hr]
  -- a difference that is too large for a word wraps and is negative, which no number of slots is
  have hwrap {count size : Int} (hcount : 0 ≤ count) (hsize : 0 ≤ size) (hlt : size < 0x100000000) :
      count = size.bmod 4294967296 ↔ count = size ∧ size < 0x80000000 := by
    rw [Int.bmod_def]
    split_ifs <;> omega
  rw [hcounts, hskips, wordGaps, gaps_eq_map h.length_out, List.zipWith_map, List.zipWith_self,
    List.map_map, List.map_inj_left, ← hskips]
  simp only [List.mem_range]
  refine forall₂_congr fun r hr => ?_
  have hgap : out.getD r 0 ≤ out.getD (r + 1) 0 := h.out_mono (Nat.le_succ r) hr
  have hlength := h.length_out
  have hword (k : Nat) (hk : k ≤ n) : IsWord (out.getD k 0) := by
    rw [List.getD_eq_getElem _ _ (by omega)]
    exact h.isWord_out _ (List.getElem_mem _)
  obtain ⟨hlow, -⟩ := hword r hr.le
  obtain ⟨-, hhigh⟩ := hword (r + 1) hr
  have hskip := h.getD_skips_nonneg hr
  exact hwrap (by omega) (sub_nonneg.mpr hgap) (by dsimp only; omega)

/-- The places of the selected slots, once the counts at the starts of the rows and the rows of all
slots are known. -/
theorem maskedSlots_eq_ite {given : Option (List Int)}
    (hgiven : given.getD (List.replicate n 0) = skips) {starts : List Int} {rows : List Nat}
    (hstarts : (if pointer.length < 2 then pure [] else
      pointer.mapM (itemAtPosition (selectedTotals mask).toArray) : Except (Fault R) (List Int)) =
        .ok starts)
    (hlength : (gaps starts).length = n)
    (hrows : slotRows pointer = (.ok rows : Except (Fault R) (List Nat))) :
    maskedSlots mask pointer out given =
      if List.zipWith (· + ·) (gaps starts) skips = wordGaps out then
        (selectedSlots mask).mapM fun slot =>
          match rows[slot]?.bind ((rowOffsets out skips starts)[·]?) with
          | some first => .ok (first + selectedBefore mask slot)
          | none => .error .slotOutOfRange
      else (.error .pointerMismatch : Except (Fault R) (List Int)) := by
  have hpointer := h.isRowPointer.length_eq
  have hreserved : given.getD (List.replicate (pointer.length - 1) 0) = skips := by
    rw [hpointer, Nat.add_sub_cancel, hgiven]
  have hnonempty : ¬ (pointer.isEmpty = true ∧ given.isNone = true) := by
    rintro ⟨hempty, -⟩
    rw [List.isEmpty_iff.mp hempty] at hpointer
    cases hpointer
  have hsum : sumEach (gaps starts) skips =
      (.ok (List.zipWith (· + ·) (gaps starts) skips) : Except (Fault R) (List Int)) :=
    sumEach_eq_ok (by rw [hlength, h.length_skips])
  have hselected := filter_zipIdx_selectedTotals mask
  unfold selectedTotals at hstarts hselected
  -- without any row the starts are not looked up, and the rest is the same
  have hnext (next : List Int → Except (Fault R) (List Int)) :
      (if pointer.length < 2 then pure [] >>= next else
        pointer.mapM (itemAtPosition (runningTotals (mask.map fun b =>
          if b then (1 : Int) else 0)).toArray) >>= next) = next starts := by
    split_ifs at hstarts ⊢ <;> exact bind_eq_of_eq_ok hstarts
  rw [maskedSlots, if_neg hnonempty, hreserved]
  refine (hnext _).trans ((bind_eq_of_eq_ok hsum).trans ?_)
  by_cases hlengths : List.zipWith (· + ·) (gaps starts) skips = wordGaps out
  · rw [if_pos hlengths, if_neg (not_not.mpr hlengths)]
    refine (bind_eq_of_eq_ok hrows).trans ?_
    simp only [hselected, List.mapM_map, List.getElem?_toArray]
    rfl
  · rw [if_neg hlengths, if_pos hlengths]
    rfl

/-- Every selected slot goes to the place of its row that its number in the row says, unless a row
is not filled. -/
theorem exists_position {given : Option (List Int)}
    (hgiven : given.getD (List.replicate n 0) = skips) :
    ∃ position : Nat → Int, CountsInRows n mask pointer out skips position ∧
      ((∀ r < n, IsFilledRow mask pointer out skips r) →
        maskedSlots mask pointer out given =
          (.ok ((selectedSlots mask).map position) : Except (Fault R) (List Int))) ∧
      ((¬ ∀ r < n, IsFilledRow mask pointer out skips r) →
        maskedSlots mask pointer out given =
          (.error .pointerMismatch : Except (Fault R) (List Int))) := by
  have hlength := h.isRowPointer.length_eq
  obtain ⟨starts, hstarts, hlong, hstart, hgaps⟩ := h.exists_starts (R := R)
  have hsize : pointer.getD n 0 < 0x80000000 := by
    rw [List.getD_eq_getElem _ _ (by omega)]
    exact (h.isWord_pointer _ (List.getElem_mem _)).2
  obtain ⟨rows, hrows, hrow⟩ := h.isRowPointer.exists_slotRows_eq_ok (R := R) hsize
  have hcheck := h.lengths_eq_iff hgaps
  have hplaces := h.maskedSlots_eq_ite hgiven hstarts (by rw [hgaps]; simp) hrows
  have hoffset (r : Nat) (hr : r < n) : (rowOffsets out skips starts)[r]? =
      some (out.getD r 0 + skips.getD r 0 - selectedBefore mask (pointer.getD r 0).toNat) := by
    have hout := h.length_out
    have hskips := h.length_skips
    rw [getElem?_rowOffsets (by omega) (by omega) (by omega), hstart r hr]
  refine ⟨fun slot => (rows[slot]?.bind ((rowOffsets out skips starts)[·]?)).getD 0 +
      selectedBefore mask slot,
    fun r hr slot hlow hhigh => ?_, fun hfilled => ?_, fun hfilled => ?_⟩
  · dsimp only
    rw [hrow r hr slot hlow hhigh, Option.bind_some, hoffset r hr, Option.getD_some]
    omega
  · rw [hplaces, if_pos (hcheck.mpr hfilled)]
    refine mapM_eq_ok _ fun slot hslot => ?_
    obtain ⟨r, hr, hlow, hhigh⟩ := h.exists_row hslot
    simp only [hrow r hr slot hlow hhigh, Option.bind_some, hoffset r hr, Option.getD_some]
  · rw [hplaces, if_neg fun hlengths => hfilled (hcheck.mp hlengths)]

/-! ## Tiling -/

section Tiling

variable {position : Nat → Int} (hposition : CountsInRows n mask pointer out skips position)
  (hfilled : ∀ r < n, IsFilledRow mask pointer out skips r)

include hposition hfilled

/-- A selected slot has a place of its row, behind the ones that are left free. -/
theorem position_mem_row {slot r : Nat} (hslot : slot ∈ selectedSlots mask) (hr : r < n)
    (hlow : pointer.getD r 0 ≤ slot) (hhigh : slot < pointer.getD (r + 1) 0) :
    out.getD r 0 + skips.getD r 0 ≤ position slot ∧ position slot < out.getD (r + 1) 0 := by
  -- the slots of the row are counted from its first slot on, and the selected one is counted last
  have hfirst : selectedBefore mask (pointer.getD r 0).toNat ≤ selectedBefore mask slot :=
    selectedBefore_mono (by omega)
  have hlast : selectedBefore mask (slot + 1) ≤
      selectedBefore mask (pointer.getD (r + 1) 0).toNat := selectedBefore_mono (by omega)
  rw [selectedBefore_succ hslot, selectedCount_eq (h.pointer_mono (Nat.le_succ r) hr)] at hlast
  have hrow := (hfilled r hr).1
  rw [hposition r hr slot hlow hhigh]
  omega

/-- Positions increase in storage order. -/
theorem position_lt_position {slot slot' : Nat} (hslot : slot ∈ selectedSlots mask)
    (hslot' : slot' ∈ selectedSlots mask) (hlt : slot < slot') :
    position slot < position slot' := by
  obtain ⟨r, hr, hlow, hhigh⟩ := h.exists_row hslot
  obtain ⟨r', hr', hlow', hhigh'⟩ := h.exists_row hslot'
  rcases Nat.lt_trichotomy r r' with hrows | rfl | hrows
  · -- the later row has later places
    have hplace := h.position_mem_row hposition hfilled hslot hr hlow hhigh
    have hplace' := h.position_mem_row hposition hfilled hslot' hr' hlow' hhigh'
    have hskip' := h.getD_skips_nonneg hr'
    have hout : out.getD (r + 1) 0 ≤ out.getD r' 0 := h.out_mono hrows hr'.le
    omega
  · -- the later slot of a row counts the earlier one
    have hbefore : selectedBefore mask (slot + 1) ≤ selectedBefore mask slot' :=
      selectedBefore_mono hlt
    rw [selectedBefore_succ hslot] at hbefore
    rw [hposition r hr slot hlow hhigh, hposition r hr slot' hlow' hhigh']
    omega
  · have hpointer : pointer.getD (r' + 1) 0 ≤ pointer.getD r 0 := h.pointer_mono hrows hr.le
    omega

theorem pairwise_positions : ((selectedSlots mask).map position).Pairwise (· < ·) :=
  List.pairwise_map.mpr (pairwise_selectedSlots.imp_of_mem fun hslot hslot' hlt =>
    h.position_lt_position hposition hfilled hslot hslot' hlt)

/-- Every place behind the ones that are left free is the one of a selected slot. -/
theorem exists_position_eq {place : Int} {r : Nat} (hr : r < n)
    (hlow : out.getD r 0 + skips.getD r 0 ≤ place) (hhigh : place < out.getD (r + 1) 0) :
    ∃ slot ∈ selectedSlots mask, position slot = place := by
  have hrow := (hfilled r hr).1
  have hmono := h.pointer_mono (Nat.le_succ r) hr
  have hnonneg := h.getD_pointer_nonneg hr.le
  have hcount : selectedBefore mask (pointer.getD (r + 1) 0).toNat =
      selectedBefore mask (pointer.getD r 0).toNat + selectedCount mask pointer r :=
    selectedCount_eq hmono
  -- the slot that has as many selected ones before it as the place says
  have hnumber : selectedBefore mask (pointer.getD r 0).toNat +
      (place - (out.getD r 0 + skips.getD r 0)).toNat <
        selectedBefore mask (pointer.getD (r + 1) 0).toNat := by omega
  obtain ⟨slot, hslot, hbefore⟩ := exists_selectedBefore_eq hnumber
  -- it belongs to the row, since slots before the row and behind it have other counts
  have hfirst : pointer.getD r 0 ≤ slot := by
    by_contra hlt
    have hle : selectedBefore mask (slot + 1) ≤ selectedBefore mask (pointer.getD r 0).toNat :=
      selectedBefore_mono (by omega)
    rw [selectedBefore_succ hslot] at hle
    omega
  have hlast : slot < pointer.getD (r + 1) 0 := by
    by_contra hge
    have hle : selectedBefore mask (pointer.getD (r + 1) 0).toNat ≤ selectedBefore mask slot :=
      selectedBefore_mono (by omega)
    omega
  refine ⟨slot, hslot, ?_⟩
  rw [hposition r hr slot hfirst hlast]
  omega

/-- Row by row, the positions are all places behind the ones that are left free. -/
theorem map_position_eq_flatMap : (selectedSlots mask).map position =
    (List.range n).flatMap fun r =>
      Int.range (out.getD r 0 + skips.getD r 0) (out.getD (r + 1) 0) := by
  have hascending : ((List.range n).flatMap fun r =>
      Int.range (out.getD r 0 + skips.getD r 0) (out.getD (r + 1) 0)).Pairwise (· < ·) := by
    refine List.pairwise_flatMap.mpr ⟨fun r _ => pairwise_intRange, ?_⟩
    refine List.pairwise_lt_range.imp_of_mem fun {r r'} hr hr' hlt place hplace place' hplace' => ?_
    obtain ⟨-, hhigh⟩ := Int.mem_range_iff.mp hplace
    obtain ⟨hlow', -⟩ := Int.mem_range_iff.mp hplace'
    have hskip' := h.getD_skips_nonneg (List.mem_range.mp hr')
    have hout : out.getD (r + 1) 0 ≤ out.getD r' 0 := h.out_mono hlt (List.mem_range.mp hr').le
    omega
  -- both lists are ascending, so it is enough to compare what they hold
  refine (h.pairwise_positions hposition hfilled).eq_of_mem_iff hascending fun place => ?_
  simp only [List.mem_flatMap, List.mem_range, Int.mem_range_iff]
  constructor
  · intro hplace
    obtain ⟨slot, hslot, rfl⟩ := List.mem_map.mp hplace
    obtain ⟨r, hr, hlow, hhigh⟩ := h.exists_row hslot
    exact ⟨r, hr, h.position_mem_row hposition hfilled hslot hr hlow hhigh⟩
  · rintro ⟨r, hr, hlow, hhigh⟩
    exact List.mem_map.mpr (h.exists_position_eq hposition hfilled hr hlow hhigh)

/-- The positions and the places that are left free are all places, each once. -/
theorem positions_tile : ((selectedSlots mask).map position ++ freePlaces n out skips).Perm
    (Int.range (out.getD 0 0) (out.getD n 0)) := by
  rw [h.map_position_eq_flatMap hposition hfilled, freePlaces]
  refine List.perm_append_comm.trans ((List.flatMap_append_perm _ _ _).trans (List.Perm.of_eq ?_))
  rw [← flatMap_intRange fun r hr => h.out_mono (Nat.le_succ r) hr]
  apply List.flatMap_congr
  intro r hr
  have hr := List.mem_range.mp hr
  have hskip := h.getD_skips_nonneg hr
  exact intRange_append (by omega) (getD_add_skips_le (hfilled r hr))

end Tiling

/-- The starts of the rows of places, the numbers of places to leave free and further numbers. -/
theorem zip_eq_map (counts : Nat → Nat) : (out.zip skips).zip ((List.range n).map counts) =
    (List.range n).map fun r => ((out.getD r 0, skips.getD r 0), counts r) := by
  have hout := h.length_out
  have hskips := h.length_skips
  apply List.ext_getElem
  · simp [hout, hskips]
  · intro r hr hr'
    have hlt : r < n := by simpa using hr'
    simp [List.getElem?_eq_getElem (show r < out.length by omega),
      List.getElem?_eq_getElem (show r < skips.length by omega)]

/-- Without a row that is too large for a word, the positions are those of rows that are compacted
with as many entries as the mask selects. -/
theorem maskedSlots_eq_compactedSlots {given : Option (List Int)}
    (hgiven : given.getD (List.replicate n 0) = skips)
    (hsize : ∀ r < n, out.getD (r + 1) 0 - out.getD r 0 < 0x80000000) :
    maskedSlots mask pointer out given =
      (compactedSlots ((List.range n).map (selectedCount mask pointer)) out skips :
        Except (Fault R) (List Int)) := by
  obtain ⟨position, hposition, hok, herror⟩ := h.exists_position (R := R) hgiven
  have hcheck := h.lengths_eq_iff
    (show ((List.range n).map (selectedCount mask pointer)).map Int.ofNat = _ from List.map_map)
  rw [wordGaps_eq_gaps h.length_out h.ascending_out hsize] at hcheck
  rw [compactedSlots, bind_eq_of_eq_ok (sumEach_eq_ok (by simp [h.length_skips]))]
  by_cases hfilled : ∀ r < n, IsFilledRow mask pointer out skips r
  · rw [hok hfilled, if_neg (not_not.mpr (hcheck.mpr hfilled)), h.zip_eq_map,
      h.map_position_eq_flatMap hposition hfilled, List.flatMap_map]
    refine congrArg Except.ok (List.flatMap_congr fun r hr => ?_)
    have hrow := (hfilled r (List.mem_range.mp hr)).1
    rw [Int.range, show (out.getD (r + 1) 0 - (out.getD r 0 + skips.getD r 0)).toNat =
      selectedCount mask pointer r by omega]
  · rw [herror hfilled, if_pos fun hlengths => hfilled (hcheck.mp hlengths)]
    rfl

/-- Places are refused exactly if a row has not as many as it needs, or has too many for a word.
Otherwise every selected slot gets a place of its own row, behind the ones that the row leaves free;
the places increase in storage order, and with the free ones they are all places, each once. -/
theorem maskedSlots_tiles {given : Option (List Int)}
    (hgiven : given.getD (List.replicate n 0) = skips) :
    (maskedSlots mask pointer out given =
        (.error .pointerMismatch : Except (Fault R) (List Int)) ↔
      ∃ r < n, (selectedCount mask pointer r + skips.getD r 0 ≠ out.getD (r + 1) 0 - out.getD r 0 ∨
        0x80000000 ≤ out.getD (r + 1) 0 - out.getD r 0)) ∧
    (maskedSlots mask pointer out given ≠
        (.error .pointerMismatch : Except (Fault R) (List Int)) →
      ∃ positions, maskedSlots mask pointer out given =
          (.ok positions : Except (Fault R) (List Int)) ∧
        positions.Pairwise (· < ·) ∧
        List.Forall₂ (fun (slot : Nat) place => ∃ r < n,
          (pointer.getD r 0 ≤ slot ∧ slot < pointer.getD (r + 1) 0) ∧
          out.getD r 0 + skips.getD r 0 ≤ place ∧ place < out.getD (r + 1) 0)
          (selectedSlots mask) positions ∧
        (positions ++ freePlaces n out skips).Perm
          (Int.range (out.getD 0 0) (out.getD n 0))) := by
  obtain ⟨position, hposition, hok, herror⟩ := h.exists_position (R := R) hgiven
  have hunfilled : (¬ ∀ r < n, IsFilledRow mask pointer out skips r) ↔
      ∃ r < n, (selectedCount mask pointer r + skips.getD r 0 ≠ out.getD (r + 1) 0 - out.getD r 0 ∨
        0x80000000 ≤ out.getD (r + 1) 0 - out.getD r 0) := by
    simp only [IsFilledRow, not_forall, not_and_or, not_lt, ne_eq, exists_prop]
  by_cases hfilled : ∀ r < n, IsFilledRow mask pointer out skips r
  · have hrun := hok hfilled
    refine ⟨⟨fun hfault => ?_, fun hrow => absurd hfilled (hunfilled.mpr hrow)⟩, fun _ =>
      ⟨_, hrun, ?_, ?_, h.positions_tile hposition hfilled⟩⟩
    · rw [hrun] at hfault
      cases hfault
    · exact h.pairwise_positions hposition hfilled
    · rw [List.forall₂_map_right_iff, List.forall₂_same]
      intro slot hslot
      obtain ⟨r, hr, hlow, hhigh⟩ := h.exists_row hslot
      exact ⟨r, hr, ⟨hlow, hhigh⟩, h.position_mem_row hposition hfilled hslot hr hlow hhigh⟩
  · have hrun := herror hfilled
    exact ⟨⟨fun _ => hunfilled.mp hfilled, fun _ => hrun⟩, fun hne => absurd hrun hne⟩

end IsScatter

/-- A row of which one slot is selected, an empty row and a row of which all slots are selected; the
first two leave a place free. -/
theorem maskedSlots_tiles_emptyRow :
    IsScatter 3 [true, false, true, true, true] [0, 2, 2, 5] [3, 5, 6, 9] [1, 1, 0] ∧
      (some ([1, 1, 0] : List Int)).getD (List.replicate 3 0) = [1, 1, 0] ∧
      maskedSlots [true, false, true, true, true] [0, 2, 2, 5] [3, 5, 6, 9] (some [1, 1, 0]) =
        (.ok [4, 6, 7, 8] : Except (Fault Unit) (List Int)) ∧
      ([4, 6, 7, 8] ++ freePlaces 3 [3, 5, 6, 9] [1, 1, 0]).Perm (Int.range 3 9) := by
  have h : IsScatter 3 [true, false, true, true, true] [0, 2, 2, 5] [3, 5, 6, 9] [1, 1, 0] :=
    ⟨⟨rfl, rfl, by decide⟩, rfl, by simp [IsWord], rfl, by decide, by simp [IsWord], rfl, by decide⟩
  have hrun : maskedSlots [true, false, true, true, true] [0, 2, 2, 5] [3, 5, 6, 9]
      (some [1, 1, 0]) = (.ok [4, 6, 7, 8] : Except (Fault Unit) (List Int)) := rfl
  have hgiven : (some ([1, 1, 0] : List Int)).getD (List.replicate 3 0) = [1, 1, 0] := rfl
  obtain ⟨positions, hpositions, -, -, htiles⟩ :=
    (h.maskedSlots_tiles (R := Unit) hgiven).2 (by rw [hrun]; simp)
  rw [hrun] at hpositions
  cases hpositions
  exact ⟨h, hgiven, hrun, htiles⟩

/-- A row that leaves all its places free, as many as it has, is refused if their number is not a
word. -/
theorem maskedSlots_wideRow :
    IsScatter 1 [] [0, 0] [-0x80000000, 0] [0x80000000] ∧
      (∀ r < 1, selectedCount [] [0, 0] r + ([0x80000000] : List Int).getD r 0 =
        ([-0x80000000, 0] : List Int).getD (r + 1) 0 - ([-0x80000000, 0] : List Int).getD r 0) ∧
      maskedSlots [] [0, 0] [-0x80000000, 0] (some [0x80000000]) =
        (.error .pointerMismatch : Except (Fault Unit) (List Int)) := by
  have h : IsScatter 1 [] [0, 0] [-0x80000000, 0] [0x80000000] :=
    ⟨⟨rfl, rfl, by decide⟩, rfl, by simp [IsWord], rfl, by decide, by simp [IsWord], rfl, by decide⟩
  exact ⟨h, by decide, rfl⟩

end Multigrid
