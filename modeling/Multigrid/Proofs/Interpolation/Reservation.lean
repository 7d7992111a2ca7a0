import Multigrid.Proofs.Interpolation.Filling
import Multigrid.Proofs.Interpolation.Rows
import Multigrid.Proofs.Sparse.Coefficient

/-!
# Row pointers that are not the one of the rows

Filling takes the row pointer on trust for coarse points.  A row that is not coarse has to have as
many slots as entries, or the filling fails.  A coarse row writes its entry and its slots are not
counted: without any the entry ends up in the row behind it, which overwrites it, and of several
slots only the first is written.

So what is returned has the right number of slots in all rows that are not coarse.  It has all its
slots written unless a coarse row has more than one, and it is the prolongator if all coarse rows
have one slot each.

## Main definitions

* `Extended.misfit`: the fault of a row, given the lengths of all rows

## Main results

* `Extended.none_mem_reservedSlots_iff`: rows with a slot that is not written
* `Extended.exists_rows_fill_eq_elim`: the first fault, or what is returned
* `Extended.reservation_checked_unless_coarse`: which row pointers are rejected
-/

namespace Multigrid

namespace Extended

variable {V W R : Type} {n : Nat}

theorem getD_map_finRange (f : Fin n → Nat) (i : Fin n) :
    ((List.finRange n).map f).getD i 0 = f i := by
  simp

/-! ## Slots that are not written -/

section Slots

variable {pointer : List Int} {rows : Fin n → List (Entry n V)}

theorem none_mem_reservedSlots_iff {i : Fin n} :
    none ∈ reservedSlots pointer rows i ↔ ((rows i).length : Int) < reserved pointer i := by
  rw [reservedSlots, List.take_append, List.mem_append, List.length_map, List.take_replicate,
    List.mem_replicate]
  have hentries : none ∉ ((rows i).map some).take (reserved pointer i).toNat := fun h => by
    simpa using List.mem_of_mem_take h
  simp only [hentries, false_or, and_true]
  omega

theorem none_mem_rowEntries_iff : none ∈ rowEntries (reservedSlots pointer rows) ↔
    ∃ i, ((rows i).length : Int) < reserved pointer i := by
  simp only [rowEntries, List.mem_flatMap, List.mem_finRange, true_and, none_mem_reservedSlots_iff]

end Slots

/-! ## Rows with a fault -/

/-- The fault of row `i`, if there is one: a row that is not coarse and has not as many slots as
entries, or a coarse row behind the last slot. -/
def misfit (labels : Vector Label n) (sizes : List Nat) (pointer : List Int) (i : Fin n) :
    Option (Fault R) :=
  rowFault labels pointer (fun _ => none) (fun i => sizes.getD i 0) i

section Misfit

variable {labels : Vector Label n} {sizes : List Nat} {pointer : List Int} {i : Fin n}

/-- A row that is not coarse. -/
theorem misfit_of_ne_coarse (hi : labels.get i ≠ .coarse) : misfit labels sizes pointer i =
    if (sizes.getD i 0 : Int) = reserved pointer i then none
    else some (.rowMismatch i (sizes.getD i 0) (reserved pointer i) : Fault R) := by
  rw [misfit, rowFault, if_neg hi, Option.none_or]

/-- A coarse row with a slot of its own. -/
theorem misfit_of_coarse (hpointer : IsRowPointer n pointer) (hi : labels.get i = .coarse)
    (hslot : 0 < reserved pointer i) :
    (misfit labels sizes pointer i : Option (Fault R)) = none := by
  rw [misfit, rowFault, if_pos hi, if_pos (hpointer.getD_lt_getD hslot)]

end Misfit

/-! ## The prolongator -/

section Fill

variable [Arith V] [Arith W] [Storage V V W] {G : StrengthGraph V n} {labels : Vector Label n}
  {diagonal : Vector W n} {firstOnly : Bool} {given : Option Int} {sizes : List Nat}
  {pointer : List Int}

/-- The first row with a fault ends the filling.  Without any, the rows are in the slots that the
row pointer reserves. -/
theorem exists_rows_fill_eq_elim (diagonal : Vector W n)
    (hsizes : rowSizes G labels firstOnly given .full = (.ok sizes : Except (Fault R) (List Nat)))
    (hpointer : IsRowPointer n pointer) :
    ∃ rows : Fin n → List (Entry n V),
      (∀ i, row G labels diagonal firstOnly (chosenCapacity G labels firstOnly given) i =
        (.ok (rows i) : Except (Fault R) (List (Entry n V)))) ∧
      sizes = (List.finRange n).map (fun i => (rows i).length) ∧
      fill G labels diagonal firstOnly given .full pointer n =
        (((List.finRange n).findSome? (misfit labels sizes pointer)).elim
          (.ok ⟨pointer, n, (rowEntries (reservedSlots pointer rows)).toArray⟩) .error :
            Except (Fault R) (RowBuffer V n)) := by
  obtain ⟨rows, hrow, rfl⟩ := exists_rows_of_rowSizes_eq_ok diagonal hsizes
  refine ⟨rows, hrow, rfl, ?_⟩
  have hmisfit : (misfit labels ((List.finRange n).map fun i => (rows i).length) pointer :
      Fin n → Option (Fault R)) =
        rowFault labels pointer (fun _ => none) fun i => (rows i).length := by
    funext i
    simp only [misfit, rowFault, getD_map_finRange]
  have hfill := fill_eq_elim (fun _ => none) hpointer hrow rfl
  rwa [← hmisfit] at hfill

/-- The fault is the one of the first row that has any. -/
theorem fill_eq_error_iff_misfit
    (hsizes : rowSizes G labels firstOnly given .full = (.ok sizes : Except (Fault R) (List Nat)))
    (hpointer : IsRowPointer n pointer) (fault : Fault R) :
    fill G labels diagonal firstOnly given .full pointer n = .error fault ↔
      ∃ i, misfit labels sizes pointer i = some fault ∧
        ∀ j < i, (misfit labels sizes pointer j : Option (Fault R)) = none := by
  obtain ⟨rows, -, -, hfill⟩ := exists_rows_fill_eq_elim diagonal hsizes hpointer
  rw [hfill, ← findSome?_finRange_eq_some_iff]
  cases (List.finRange n).findSome?
    (misfit labels sizes pointer : Fin n → Option (Fault R)) <;> simp

/-- What is returned has the rows in the slots that the row pointer reserves, as many as entries
unless the row is the one of a coarse point. -/
theorem exists_rows_of_fill_eq_ok
    (hsizes : rowSizes G labels firstOnly given .full = (.ok sizes : Except (Fault R) (List Nat)))
    (hpointer : IsRowPointer n pointer) {buffer : RowBuffer V n}
    (h : fill G labels diagonal firstOnly given .full pointer n =
      (.ok buffer : Except (Fault R) (RowBuffer V n))) :
    ∃ rows : Fin n → List (Entry n V),
      (∀ i, row G labels diagonal firstOnly (chosenCapacity G labels firstOnly given) i =
        (.ok (rows i) : Except (Fault R) (List (Entry n V)))) ∧
      (∀ i, labels.get i ≠ .coarse → ((rows i).length : Int) = reserved pointer i) ∧
      sizes = (List.finRange n).map (fun i => (rows i).length) ∧
      buffer = ⟨pointer, n, (rowEntries (reservedSlots pointer rows)).toArray⟩ := by
  obtain ⟨rows, hrow, rfl, hfill⟩ := exists_rows_fill_eq_elim diagonal hsizes hpointer
  rw [hfill] at h
  cases hfirst : (List.finRange n).findSome? (misfit labels
      ((List.finRange n).map fun i => (rows i).length) pointer : Fin n → Option (Fault R)) with
  | some fault =>
    rw [hfirst] at h
    cases h
  | none =>
    rw [hfirst] at h
    refine ⟨rows, hrow, fun i hi => ?_, rfl, (Except.ok.inj h).symm⟩
    have hnone := List.findSome?_eq_none_iff.mp hfirst i (List.mem_finRange i)
    rw [misfit_of_ne_coarse hi, getD_map_finRange] at hnone
    by_contra hne
    rw [if_neg hne] at hnone
    cases hnone

/-- The slots that are not written are those of coarse rows that have more than one. -/
theorem none_mem_slots_iff
    (hsizes : rowSizes G labels firstOnly given .full = (.ok sizes : Except (Fault R) (List Nat)))
    (hpointer : IsRowPointer n pointer) {buffer : RowBuffer V n}
    (h : fill G labels diagonal firstOnly given .full pointer n =
      (.ok buffer : Except (Fault R) (RowBuffer V n))) :
    none ∈ buffer.slots.toList ↔ ∃ i, labels.get i = .coarse ∧ 1 < reserved pointer i := by
  obtain ⟨rows, hrow, hlength, -, rfl⟩ := exists_rows_of_fill_eq_ok hsizes hpointer h
  rw [List.toList_toArray, none_mem_rowEntries_iff]
  refine exists_congr fun i => ?_
  by_cases hi : labels.get i = .coarse
  · rw [eq_unit_of_row_eq_ok hi (hrow i), and_iff_right hi, List.length_singleton, Nat.cast_one]
  · rw [hlength i hi]
    exact ⟨fun hlt => absurd hlt (lt_irrefl _), fun hboth => absurd hboth.1 hi⟩

section Counted

variable (hsizes : rowSizes G labels firstOnly given .full =
    (.ok sizes : Except (Fault R) (List Nat)))
  (hpointer : IsRowPointer n pointer)
  (hcoarse : ∀ i, labels.get i = .coarse → reserved pointer i = 1)

include hsizes hpointer hcoarse

/-- With one slot for every coarse point the only fault is a row with a wrong number of slots. -/
theorem exists_mismatch_of_fill_eq_error {fault : Fault R}
    (h : fill G labels diagonal firstOnly given .full pointer n = .error fault) :
    ∃ i, labels.get i ≠ .coarse ∧ (sizes.getD i 0 : Int) ≠ reserved pointer i ∧
      fault = .rowMismatch i (sizes.getD i 0) (reserved pointer i) := by
  obtain ⟨i, hmisfit, -⟩ := (fill_eq_error_iff_misfit hsizes hpointer fault).mp h
  have hi : labels.get i ≠ .coarse := fun hi => by
    rw [misfit_of_coarse hpointer hi (by rw [hcoarse i hi]; exact one_pos)] at hmisfit
    cases hmisfit
  rw [misfit_of_ne_coarse hi] at hmisfit
  split_ifs at hmisfit with hne
  exact ⟨i, hi, hne, (Option.some.inj hmisfit).symm⟩

/-- With one slot for every coarse point no row pointer but the one of the rows is accepted. -/
theorem exists_fill_eq_ok_iff :
    (∃ buffer, fill G labels diagonal firstOnly given .full pointer n =
      (.ok buffer : Except (Fault R) (RowBuffer V n))) ↔
        pointer = runningTotals (sizes.map Int.ofNat) := by
  constructor
  · rintro ⟨buffer, hbuffer⟩
    obtain ⟨rows, hrow, hlength, rfl, -⟩ := exists_rows_of_fill_eq_ok hsizes hpointer hbuffer
    refine hpointer.eq_rowPointer fun i => ?_
    by_cases hi : labels.get i = .coarse
    · rw [eq_unit_of_row_eq_ok hi (hrow i), hcoarse i hi]
      rfl
    · exact hlength i hi
  · intro heq
    cases hfill : (fill G labels diagonal firstOnly given .full pointer n :
        Except (Fault R) (RowBuffer V n)) with
    | ok buffer => exact ⟨buffer, rfl⟩
    | error fault =>
      obtain ⟨i, -, hne, -⟩ := exists_mismatch_of_fill_eq_error hsizes hpointer hcoarse hfill
      obtain ⟨rows, -, rfl⟩ := exists_rows_of_rowSizes_eq_ok diagonal hsizes
      obtain rfl : pointer = rowPointer rows := heq
      rw [getD_map_finRange, reserved_rowPointer] at hne
      exact absurd rfl hne

end Counted

/-- Rows that are not coarse have to have as many slots as entries.  The slots of coarse rows are
not counted, and of several slots of a coarse row all but the first stay unwritten.  With one slot
for every coarse point no row pointer but the one of the rows is accepted. -/
theorem reservation_checked_unless_coarse (diagonal : Vector W n)
    (hsizes : rowSizes G labels firstOnly given .full = (.ok sizes : Except (Fault R) (List Nat)))
    (hpointer : IsRowPointer n pointer) :
    -- the first row with a fault
    (∀ fault : Fault R, fill G labels diagonal firstOnly given .full pointer n = .error fault ↔
      ∃ i, misfit labels sizes pointer i = some fault ∧
        ∀ j < i, (misfit labels sizes pointer j : Option (Fault R)) = none) ∧
    -- what is returned
    (∀ buffer : RowBuffer V n, fill G labels diagonal firstOnly given .full pointer n =
        (.ok buffer : Except (Fault R) (RowBuffer V n)) →
      (∀ i, labels.get i ≠ .coarse → (sizes.getD i 0 : Int) = reserved pointer i) ∧
      (∃ rows : Fin n → List (Entry n V), ∀ i,
        row G labels diagonal firstOnly (chosenCapacity G labels firstOnly given) i =
          (.ok (rows i) : Except (Fault R) (List (Entry n V))) ∧
        buffer.rowSlots i = reservedSlots pointer rows i) ∧
      (none ∈ buffer.slots.toList ↔ ∃ i, labels.get i = .coarse ∧ 1 < reserved pointer i)) ∧
    -- one slot for every coarse point
    ((∀ i, labels.get i = .coarse → reserved pointer i = 1) →
      ((∃ buffer, fill G labels diagonal firstOnly given .full pointer n =
          (.ok buffer : Except (Fault R) (RowBuffer V n))) ↔
        pointer = runningTotals (sizes.map Int.ofNat)) ∧
      ∀ fault : Fault R, fill G labels diagonal firstOnly given .full pointer n = .error fault →
        ∃ i, labels.get i ≠ .coarse ∧ (sizes.getD i 0 : Int) ≠ reserved pointer i ∧
          fault = .rowMismatch i (sizes.getD i 0) (reserved pointer i)) := by
  refine ⟨fill_eq_error_iff_misfit hsizes hpointer, fun buffer hbuffer => ⟨?_, ?_,
    none_mem_slots_iff hsizes hpointer hbuffer⟩, fun hcoarse =>
      ⟨exists_fill_eq_ok_iff hsizes hpointer hcoarse, fun _ =>
        exists_mismatch_of_fill_eq_error hsizes hpointer hcoarse⟩⟩
  · obtain ⟨rows, -, hlength, rfl, -⟩ := exists_rows_of_fill_eq_ok hsizes hpointer hbuffer
    intro i hi
    rw [getD_map_finRange, hlength i hi]
  · obtain ⟨rows, hrow, -, -, rfl⟩ := exists_rows_of_fill_eq_ok hsizes hpointer hbuffer
    refine ⟨rows, fun i => ⟨hrow i, ?_⟩⟩
    have heq : pointer = rowPointer (reservedSlots pointer rows) :=
      eq_rowPointer_reservedSlots hpointer
    have hslots := RowBuffer.rowSlots_rowEntries n (reservedSlots pointer rows) i
    rwa [← heq] at hslots

/-- A point between two coarse ones. -/
def spanned : StrengthGraph Rat 3 :=
  .ofMatrix (1 / 4) (.ofDense !![1, 0, 0; -1, 2, -1; 0, 0, 1])

/-- The outer points are coarse. -/
def spannedLabels : Vector Label 3 := #v[.coarse, .fine, .coarse]

/-- A row pointer with a slot less for the row in the middle is rejected, and the one of the rows is
accepted. -/
theorem reservation_spanned :
    rowSizes spanned spannedLabels false none .full =
      (.ok [1, 2, 1] : Except (Fault Unit) (List Nat)) ∧
    IsRowPointer 3 [0, 1, 2, 3] ∧ IsRowPointer 3 [0, 1, 3, 4] ∧
    fill spanned spannedLabels (#v[1, 2, 1] : Vector Rat 3) false none .full [0, 1, 2, 3] 3 =
      (.error (.rowMismatch 1 2 1) : Except (Fault Unit) (RowBuffer Rat 3)) ∧
    ∃ buffer,
      fill spanned spannedLabels (#v[1, 2, 1] : Vector Rat 3) false none .full [0, 1, 3, 4] 3 =
        (.ok buffer : Except (Fault Unit) (RowBuffer Rat 3)) ∧
      none ∉ buffer.slots.toList := by
  have hsizes : rowSizes spanned spannedLabels false none .full =
      (.ok [1, 2, 1] : Except (Fault Unit) (List Nat)) := by
    with_unfolding_all rfl
  have hshort : IsRowPointer 3 [0, 1, 2, 3] := ⟨rfl, rfl, by decide⟩
  have hexact : IsRowPointer 3 [0, 1, 3, 4] := ⟨rfl, rfl, by decide⟩
  obtain ⟨herror, -, -⟩ := reservation_checked_unless_coarse (#v[1, 2, 1] : Vector Rat 3) hsizes
    hshort
  obtain ⟨-, hreturned, hcounted⟩ := reservation_checked_unless_coarse
    (#v[1, 2, 1] : Vector Rat 3) hsizes hexact
  obtain ⟨buffer, hbuffer⟩ := (hcounted (by decide)).1.mpr rfl
  refine ⟨hsizes, hshort, hexact, (herror _).mpr ⟨1, rfl, by decide⟩, buffer, hbuffer, ?_⟩
  rw [(hreturned buffer hbuffer).2.2]
  decide

/-- Two coarse points without a connection. -/
def isolated : StrengthGraph Rat 2 := .ofRows fun i => [⟨⟨i, 2⟩, false⟩]

/-- Of two coarse rows, each of which has one entry, the first may have no slot and the second may
have two, one of which is not written.  Without a slot for the second row its position is the fault.
-/
theorem reservation_isolated :
    rowSizes isolated #v[.coarse, .coarse] false none .full =
      (.ok [1, 1] : Except (Fault Unit) (List Nat)) ∧
    (IsRowPointer 2 [0, 0, 1] ∧ reserved [0, 0, 1] (0 : Fin 2) = 0 ∧
      fill isolated #v[.coarse, .coarse] (#v[2, 2] : Vector Rat 2) false none .full [0, 0, 1] 2 =
        (.ok ⟨[0, 0, 1], 2, #[some ⟨1, 1⟩]⟩ : Except (Fault Unit) (RowBuffer Rat 2))) ∧
    (IsRowPointer 2 [0, 1, 3] ∧ reserved [0, 1, 3] (1 : Fin 2) = 2 ∧
      fill isolated #v[.coarse, .coarse] (#v[2, 2] : Vector Rat 2) false none .full [0, 1, 3] 2 =
        (.ok ⟨[0, 1, 3], 2, #[some ⟨0, 1⟩, some ⟨1, 1⟩, none]⟩ :
          Except (Fault Unit) (RowBuffer Rat 2))) ∧
    IsRowPointer 2 [0, 1, 1] ∧
      fill isolated #v[.coarse, .coarse] (#v[2, 2] : Vector Rat 2) false none .full [0, 1, 1] 2 =
        (.error .slotOutOfRange : Except (Fault Unit) (RowBuffer Rat 2)) := by
  refine ⟨?_, ⟨⟨rfl, rfl, by decide⟩, rfl, ?_⟩, ⟨⟨rfl, rfl, by decide⟩, rfl, ?_⟩,
    ⟨rfl, rfl, by decide⟩, ?_⟩ <;> with_unfolding_all rfl

end Fill

end Extended

end Multigrid
