import Multigrid.Proofs.Sparse.WellFormed

/-!
# Row pointers

A row pointer starts at zero and does not decrease.  Neighbouring positions bound the slots of a
row, and the slots of all rows are the ones below the last position, each of them in one row.

## Main definitions

* `IsRowPointer`, `reserved`: row pointers and the number of slots that they reserve for a row

## Main results

* `IsRowPointer.eq_rowPointer`: the row pointer of parts that are as long as it says
* `exists_row_of_le_of_lt`: the row of a slot
* `IsRowPointer.exists_slotRows_eq_ok`: the rows of all slots
-/

namespace Multigrid

variable {β R : Type} {n : Nat}

/-! ## Positions -/

theorem getD_le_getD_of_pairwise {pointer : List Int} (h : pointer.Pairwise (· ≤ ·)) {k k' : Nat}
    (hk : k ≤ k') (hk' : k' < pointer.length) : pointer.getD k 0 ≤ pointer.getD k' 0 := by
  rcases hk.lt_or_eq with hlt | rfl
  · rw [List.getD_eq_getElem _ _ (by omega), List.getD_eq_getElem _ _ (by omega)]
    exact List.pairwise_iff_getElem.mp h k k' (by omega) (by omega) hlt
  · exact le_rfl

/-- A slot between the first position and the last one is between two neighbours. -/
theorem exists_row_of_le_of_lt (position : Nat → Int) {slot : Int} {n : Nat}
    (hlow : position 0 ≤ slot) (hhigh : slot < position n) :
    ∃ r < n, position r ≤ slot ∧ slot < position (r + 1) := by
  induction n with
  | zero => omega
  | succ n ih =>
    by_cases hlast : slot < position n
    · obtain ⟨r, hr, hrow⟩ := ih hlast
      exact ⟨r, by omega, hrow⟩
    · exact ⟨n, by omega, by omega, hhigh⟩

/-- The differences of neighbours, row by row. -/
theorem gaps_eq_map {pointer : List Int} (h : pointer.length = n + 1) :
    gaps pointer = (List.range n).map fun r => pointer.getD (r + 1) 0 - pointer.getD r 0 := by
  apply List.ext_getElem
  · simp [gaps, h]
  · intro r hr hr'
    have hlt : r < n := by simpa using hr'
    rw [List.getElem_map, List.getElem_range, List.getD_eq_getElem _ _ (by omega),
      List.getD_eq_getElem _ _ (by omega)]
    simp [gaps]

/-- Differences of neighbours that are not negative and fit a word do not wrap. -/
theorem wordGaps_eq_gaps {pointer : List Int} (hlength : pointer.length = n + 1)
    (hascending : pointer.Pairwise (· ≤ ·))
    (hsize : ∀ r < n, pointer.getD (r + 1) 0 - pointer.getD r 0 < 0x80000000) :
    wordGaps pointer = gaps pointer := by
  rw [wordGaps, gaps_eq_map hlength, List.map_map]
  apply List.map_congr_left
  intro r hr
  have hr := List.mem_range.mp hr
  have hnext : pointer.getD r 0 ≤ pointer.getD (r + 1) 0 :=
    getD_le_getD_of_pairwise hascending (Nat.le_succ r) (by omega)
  have hsize := hsize r hr
  exact Int.bmod_eq_of_le (by dsimp only; omega) (by dsimp only; omega)

/-! ## Row pointers -/

/-- A row pointer of `n` rows: it starts at zero and does not decrease. -/
structure IsRowPointer (n : Nat) (pointer : List Int) : Prop where
  /-- The number of positions. -/
  length_eq : pointer.length = n + 1
  /-- The first position. -/
  head?_eq : pointer.head? = some 0
  /-- The order of the positions. -/
  ascending : pointer.Pairwise (· ≤ ·)

/-- The number of slots that a row pointer reserves for row `i`. -/
def reserved (pointer : List Int) (i : Fin n) : Int :=
  pointer.getD (i + 1) 0 - pointer.getD i 0

theorem scanl_gaps (rest : List Int) (a : Int) :
    (gaps (a :: rest)).scanl (· + ·) a = a :: rest := by
  induction rest generalizing a with
  | nil => rfl
  | cons b rest ih =>
    have hgaps : gaps (a :: b :: rest) = (b - a) :: gaps (b :: rest) := rfl
    rw [hgaps, List.scanl_cons, show a + (b - a) = b by omega, ih]

namespace IsRowPointer

variable {pointer : List Int} (h : IsRowPointer n pointer)

include h

/-- A row pointer is the one of all parts that are as long as it says. -/
theorem eq_rowPointer {parts : Fin n → List β}
    (hparts : ∀ i, ((parts i).length : Int) = reserved pointer i) : pointer = rowPointer parts := by
  have hlength := h.length_eq
  obtain _ | ⟨first, rest⟩ := pointer
  · cases hlength
  obtain rfl : first = 0 := by simpa using h.head?_eq
  have hgaps : gaps (0 :: rest) =
      ((List.finRange n).map fun i => (parts i).length).map Int.ofNat := by
    apply List.ext_getElem
    · simp only [gaps, List.tail_cons, List.length_zipWith, List.length_cons, List.length_map,
        List.length_finRange] at hlength ⊢
      omega
    · intro i hi hi'
      have hlt : i < n := by simpa using hi'
      have hpart := hparts ⟨i, hlt⟩
      rw [reserved, List.getD_eq_getElem _ _ (by omega),
        List.getD_eq_getElem _ _ (by omega)] at hpart
      simp only [gaps, List.getElem_zipWith, List.getElem_map, List.getElem_finRange]
      exact hpart.symm
  rw [rowPointer, ← hgaps, runningTotals, scanl_gaps]

theorem getD_le_getD {k k' : Nat} (hk : k ≤ k') (hk' : k' ≤ n) :
    pointer.getD k 0 ≤ pointer.getD k' 0 :=
  getD_le_getD_of_pairwise h.ascending hk (h.length_eq ▸ Nat.lt_succ_of_le hk')

theorem getD_zero : pointer.getD 0 0 = 0 := by
  rw [List.getD_eq_getElem?_getD, ← List.head?_eq_getElem?, h.head?_eq]
  rfl

theorem reserved_nonneg (i : Fin n) : 0 ≤ reserved pointer i :=
  sub_nonneg.mpr (h.getD_le_getD (Nat.le_succ i) i.isLt)

/-- A row with a slot of its own starts in front of the end. -/
theorem getD_lt_getD {i : Fin n} (hi : 0 < reserved pointer i) :
    pointer.getD i 0 < pointer.getD n 0 := by
  have hle : pointer.getD (i + 1) 0 ≤ pointer.getD n 0 := h.getD_le_getD i.isLt le_rfl
  rw [reserved] at hi
  omega

end IsRowPointer

/-- The running totals of lengths are a row pointer that reserves as many slots. -/
theorem isRowPointer_rowPointer (parts : Fin n → List β) : IsRowPointer n (rowPointer parts) :=
  ⟨length_rowPointer, head?_rowPointer, pairwise_runningTotals _⟩

theorem reserved_rowPointer (parts : Fin n → List β) (i : Fin n) :
    reserved (rowPointer parts) i = (parts i).length := by
  obtain ⟨pre, post, h⟩ := List.append_of_mem (List.mem_finRange i)
  rw [reserved, List.getD_eq_getElem?_getD, List.getD_eq_getElem?_getD, val_eq_length h,
    getElem?_rowPointer h, getElem?_rowPointer_succ h, Option.getD_some, Option.getD_some]
  omega

/-! ## The rows of slots -/

theorem getElem?_flatMap_replicate {first : Int} {rest : List Int} {k r slot : Nat}
    (h : (first :: rest).Pairwise (· ≤ ·)) (hr : r < rest.length)
    (hlow : (first :: rest).getD r 0 ≤ first + slot)
    (hhigh : first + slot < (first :: rest).getD (r + 1) 0) :
    (((gaps (first :: rest)).zipIdx k).flatMap fun (count, r) =>
      List.replicate count.toNat r)[slot]? = some (k + r) := by
  -- by induction on the rows; the first one is row `k` and begins at `first`
  induction rest generalizing first k r slot with
  | nil => cases hr
  | cons next rest ih =>
    have hgaps : gaps (first :: next :: rest) = (next - first) :: gaps (next :: rest) := rfl
    have hfirst : first ≤ next := (List.pairwise_cons.mp h).1 next List.mem_cons_self
    have hrest := (List.pairwise_cons.mp h).2
    rw [hgaps, List.zipIdx_cons, List.flatMap_cons]
    cases r with
    | zero =>
      have hslot : slot < (next - first).toNat := by
        simp at hhigh
        omega
      rw [List.getElem?_append_left (by simpa using hslot), List.getElem?_replicate, if_pos hslot,
        Nat.add_zero]
    | succ r =>
      -- the row starts behind the first one, so that the slot is behind it as well
      have hnext : next ≤ (next :: rest).getD r 0 :=
        getD_le_getD_of_pairwise hrest (Nat.zero_le r) (by simp at hr ⊢; omega)
      rw [List.getD_cons_succ] at hlow hhigh
      have hslot : (next - first).toNat ≤ slot := by omega
      rw [List.getElem?_append_right (by simpa using hslot), List.length_replicate,
        ih (k := k + 1) hrest (by simpa using hr) (by omega) (by omega)]
      congr 1
      omega

/-- Every slot of a row pointer is found in its row, if all positions are words. -/
theorem IsRowPointer.exists_slotRows_eq_ok {pointer : List Int} (h : IsRowPointer n pointer)
    (hsize : pointer.getD n 0 < 0x80000000) :
    ∃ rows, slotRows pointer = (.ok rows : Except (Fault R) (List Nat)) ∧
      ∀ r < n, ∀ slot : Nat, pointer.getD r 0 ≤ slot → slot < pointer.getD (r + 1) 0 →
        rows[slot]? = some r := by
  have hwords : wordGaps pointer = gaps pointer := by
    refine wordGaps_eq_gaps h.length_eq h.ascending fun r hr => ?_
    have hfirst := h.getD_le_getD (Nat.zero_le r) hr.le
    have hlast : pointer.getD (r + 1) 0 ≤ pointer.getD n 0 := h.getD_le_getD hr le_rfl
    have hzero := h.getD_zero
    omega
  have hall : (wordGaps pointer).all (0 ≤ ·) = true := by
    rw [hwords, gaps_eq_map h.length_eq, List.all_map, List.all_eq_true]
    intro r hr
    have hnext := h.getD_le_getD (Nat.le_succ r) (List.mem_range.mp hr)
    simpa using hnext
  refine ⟨_, if_pos hall, fun r hr slot hlow hhigh => ?_⟩
  have hlength := h.length_eq
  have hascending := h.ascending
  obtain _ | ⟨first, rest⟩ := pointer
  · cases hlength
  obtain rfl : first = 0 := by simpa using h.head?_eq
  have hrow : r < rest.length := by simpa [Nat.succ_inj.mp hlength] using hr
  rw [hwords, getElem?_flatMap_replicate hascending hrow (by omega) (by omega), Nat.zero_add]

end Multigrid
