import Multigrid.Proofs.Interpolation.Capacity
import Multigrid.Proofs.Interpolation.Filling

/-!
# What a capacity decides

A capacity that is given decides about one thing: whether there is a row that reaches more points
than a table has slots.  Then counting the lengths of rows fails, and so does writing them into the
slots that these lengths ask for, both with a fault that names the first such row.  Apart from that
the lengths and the rows are the same for all capacities, and a row pointer that is rejected is
rejected in the same way.  The capacity that a graph asks for is never too small.

## Main definitions

* `Extended.IsFirstCrowded`: the first row that reaches more points than a table has slots
* `Extended.FailsAtFirstCrowded`: results whose only fault is the one of that row

## Main results

* `Extended.rowSizes_failsAtFirstCrowded`, `Extended.fill_failsAtFirstCrowded`: the faults under a
  capacity
* `Extended.fill_congr`: two capacities that are large enough
* `Extended.capacity_decides_overflow_only`: all of this
-/

namespace Multigrid

namespace Extended

variable {α V W R : Type} {n : Nat}

/-! ## The first crowded row -/

/-- Row `i` reaches more points than a table has slots, and no row before it does. -/
def IsFirstCrowded (G : StrengthGraph α n) (labels : Vector Label n) (firstOnly : Bool)
    (capacity : Int) (i : Fin n) : Prop :=
  IsCrowded G labels firstOnly capacity i ∧ ∀ j < i, ¬ IsCrowded G labels firstOnly capacity j

section First

variable {G : StrengthGraph α n} {labels : Vector Label n} {firstOnly : Bool} {capacity : Int}

theorem exists_isFirstCrowded_iff : (∃ i, IsFirstCrowded G labels firstOnly capacity i) ↔
    ∃ i, IsCrowded G labels firstOnly capacity i := by
  refine ⟨fun ⟨i, hi⟩ => ⟨i, hi.1⟩, fun h => ?_⟩
  obtain ⟨i, hi, hleast⟩ := WellFounded.has_min (wellFounded_lt (α := Fin n))
    {i | IsCrowded G labels firstOnly capacity i} h
  exact ⟨i, hi, fun j hj hcrowded => hleast j hcrowded hj⟩

theorem crowdedFault_eq_some_iff {i : Fin n} {fault : Fault R} :
    crowdedFault G labels firstOnly capacity i = some fault ↔
      IsCrowded G labels firstOnly capacity i ∧ fault = .tableFull capacity (some i) := by
  unfold crowdedFault
  split_ifs with h
  · rw [Option.some.injEq, and_iff_right h, eq_comm]
  · simp [h]

theorem crowdedFault_eq_none_iff {i : Fin n} :
    (crowdedFault G labels firstOnly capacity i : Option (Fault R)) = none ↔
      ¬ IsCrowded G labels firstOnly capacity i := by
  unfold crowdedFault
  split_ifs with h <;> simp [h]

/-- The first fault is the one of the first crowded row. -/
theorem findSome?_crowdedFault_eq_some_iff {fault : Fault R} :
    (List.finRange n).findSome? (crowdedFault G labels firstOnly capacity) = some fault ↔
      ∃ i, IsFirstCrowded G labels firstOnly capacity i ∧
        fault = .tableFull capacity (some i) := by
  rw [findSome?_finRange_eq_some_iff]
  simp only [crowdedFault_eq_some_iff, crowdedFault_eq_none_iff, IsFirstCrowded, and_right_comm]

/-- A result that is there unless a row is crowded, with no fault but the one of the first such row.
-/
structure FailsAtFirstCrowded (G : StrengthGraph α n) (labels : Vector Label n) (firstOnly : Bool)
    (capacity : Int) {β : Type} (result : Except (Fault R) β) : Prop where
  /-- The rows with which there is no result. -/
  exists_eq_error_iff : (∃ fault, result = .error fault) ↔
    ∃ i, IsCrowded G labels firstOnly capacity i
  /-- The fault. -/
  eq_error_iff : ∀ fault, result = .error fault ↔ ∃ i,
    IsFirstCrowded G labels firstOnly capacity i ∧ fault = .tableFull capacity (some i)

theorem FailsAtFirstCrowded.of_eq_elim {β : Type} {result : Except (Fault R) β} {b : β}
    (h : result = ((List.finRange n).findSome? (crowdedFault G labels firstOnly capacity)).elim
      (.ok b) .error) : FailsAtFirstCrowded G labels firstOnly capacity result := by
  have hfault (fault : Fault R) : result = .error fault ↔ ∃ i,
      IsFirstCrowded G labels firstOnly capacity i ∧ fault = .tableFull capacity (some i) := by
    rw [h, ← findSome?_crowdedFault_eq_some_iff]
    cases (List.finRange n).findSome? (crowdedFault G labels firstOnly capacity) <;> simp
  refine ⟨?_, hfault⟩
  rw [← exists_isFirstCrowded_iff]
  simp only [hfault]
  exact ⟨fun ⟨_, i, hi, _⟩ => ⟨i, hi⟩, fun ⟨i, hi⟩ => ⟨_, i, hi, rfl⟩⟩

end First

/-! ## Lengths -/

/-- A list of steps, each of which gives a result or a fault. -/
theorem mapM_eq_elim {β γ ε : Type} {f : β → Except ε γ} {g : β → γ} {fault : β → Option ε}
    (h : ∀ b, f b = (fault b).elim (.ok (g b)) .error) (bs : List β) :
    bs.mapM f = (bs.findSome? fault).elim (.ok (bs.map g)) .error := by
  induction bs with
  | nil => rfl
  | cons b bs ih =>
    rw [List.mapM_cons, h, ih, List.findSome?_cons]
    cases fault b with
    | some e => rfl
    | none => cases bs.findSome? fault <;> rfl

section Lengths

variable (hn : n ≤ 0x8000000000000000) {capacity : Int} (hcapacity : 1 ≤ capacity)
  (G : StrengthGraph α n) (labels : Vector Label n) (firstOnly : Bool)

include hn hcapacity

/-- Counting the lengths fails at the first crowded row. -/
theorem rowSizes_failsAtFirstCrowded : FailsAtFirstCrowded G labels firstOnly capacity
    (rowSizes G labels firstOnly (some capacity) .full : Except (Fault R) (List Nat)) := by
  have hsizes := mapM_eq_elim (rowSize_eq_elim (R := R) hn hcapacity G labels firstOnly)
    (List.finRange n)
  refine .of_eq_elim
    (b := (List.finRange n).map fun i => (rowPoints G labels firstOnly i).length) ?_
  simp only [rowSizes, RowPlan.full, chosenCapacity, hsizes]
  cases (List.finRange n).findSome? (crowdedFault G labels firstOnly capacity) <;> rfl

end Lengths

/-! ## Rows -/

section Rows

variable [Arith V] [Arith W] [Storage V V W] {G : StrengthGraph V n} {labels : Vector Label n}
  {diagonal : Vector W n} {firstOnly : Bool}

omit [Arith V] in
/-- With a slot for every entry, the only rows with a fault are the crowded ones. -/
theorem rowFault_rowPointer {missing : Fin n → Option (Fault R)}
    (hmissing : ∀ i, labels.get i = .coarse → missing i = none)
    (rows : Fin n → List (Entry n V)) (i : Fin n) (hcoarse : labels.get i = .coarse → rows i ≠ []) :
    rowFault labels (rowPointer rows) missing (fun i => (rows i).length) i = missing i := by
  have hreserved := reserved_rowPointer rows i
  by_cases hi : labels.get i = .coarse
  · have hslot : 0 < reserved (rowPointer rows) i := by
      rw [hreserved, Int.natCast_pos]
      exact List.length_pos_of_ne_nil (hcoarse hi)
    rw [rowFault, if_pos hi, if_pos ((isRowPointer_rowPointer rows).getD_lt_getD hslot),
      hmissing i hi]
  · rw [rowFault, if_neg hi, if_pos hreserved.symm]
    cases missing i <;> rfl

/-- Writing the rows into the slots that their lengths ask for fails at the first crowded row. -/
theorem fill_failsAtFirstCrowded (hn : n ≤ 0x8000000000000000) {capacity : Int}
    (hcapacity : 1 ≤ capacity) : FailsAtFirstCrowded G labels firstOnly capacity
      (fill G labels diagonal firstOnly (some capacity) .full
        (rowPointer (rowPoints G labels firstOnly)) n : Except (Fault R) (RowBuffer V n)) := by
  choose rows hrow hcolumns hunit using exists_row (R := R) G labels diagonal firstOnly hn
  have hpointer : rowPointer (rowPoints G labels firstOnly) = rowPointer rows := by
    simp only [rowPointer, ← hcolumns, List.length_map]
  have hfault : rowFault labels (rowPointer rows)
      (crowdedFault (R := R) G labels firstOnly capacity) (fun i => (rows i).length) =
        crowdedFault G labels firstOnly capacity := by
    funext i
    exact rowFault_rowPointer (fun i hi => crowdedFault_eq_none_iff.mpr fun h => h.1 hi) rows i
      fun hi => by rw [hunit i hi]; exact List.cons_ne_nil _ _
  have hfill := fill_eq_elim (crowdedFault G labels firstOnly capacity)
    (isRowPointer_rowPointer rows) (row_eq_elim hn hcapacity hrow)
    (show chosenCapacity G labels firstOnly (some capacity) = capacity from rfl)
  rw [hfault, ← hpointer] at hfill
  exact .of_eq_elim hfill

/-- Two capacities that are large enough for all rows give the same prolongator, or the same fault,
for all row pointers. -/
theorem fill_congr {given given' : Option Int} {sizes sizes' : List Nat}
    (h : rowSizes G labels firstOnly given .full = (.ok sizes : Except (Fault R) (List Nat)))
    (h' : rowSizes G labels firstOnly given' .full = (.ok sizes' : Except (Fault R) (List Nat)))
    (pointer : List Int) (width : Nat) :
    fill G labels diagonal firstOnly given' .full pointer width =
      (fill G labels diagonal firstOnly given .full pointer width :
        Except (Fault R) (RowBuffer V n)) := by
  obtain ⟨rows, hrow, -⟩ := exists_rows_of_rowSizes_eq_ok diagonal h
  obtain ⟨rows', hrow', -⟩ := exists_rows_of_rowSizes_eq_ok diagonal h'
  have hrows (i : Fin n) :
      row G labels diagonal firstOnly (chosenCapacity G labels firstOnly given') i =
        (row G labels diagonal firstOnly (chosenCapacity G labels firstOnly given) i :
          Except (Fault R) (List (Entry n V))) := by
    rw [hrow, hrow', eq_of_row_eq_ok (hrow i) (hrow' i)]
  have hfill : fillRow G labels diagonal firstOnly (chosenCapacity G labels firstOnly given') =
      (fillRow G labels diagonal firstOnly (chosenCapacity G labels firstOnly given) :
        RowBuffer V n → Fin n → Except (Fault R) (RowBuffer V n)) := by
    funext buffer i
    simp only [fillRow, hrows]
  simp only [fill, hfill]

/-- With the capacity that the graph asks for, the lengths of the rows make a row pointer under
which all rows are written. -/
theorem exists_fill_eq_ok (hn : n ≤ 0x8000000000000000) : ∃ sizes buffer,
    rowSizes G labels firstOnly none .full = (.ok sizes : Except (Fault R) (List Nat)) ∧
      fill G labels diagonal firstOnly none .full (runningTotals (sizes.map Int.ofNat)) n =
        (.ok buffer : Except (Fault R) (RowBuffer V n)) := by
  have hsizes := rowSizes_eq (R := R) G labels firstOnly hn
  obtain ⟨rows, hrow, hlengths⟩ := exists_rows_of_rowSizes_eq_ok diagonal hsizes
  refine ⟨_, RowBuffer.ofRows rows n, hsizes, ?_⟩
  rw [hlengths]
  exact fill_eq_ok hrow

/-- A capacity that is given decides about the first crowded row, and about nothing else.  The one
that the graph asks for is a power of two from 32 on, and no row is crowded under it. -/
theorem capacity_decides_overflow_only (hn : n ≤ 0x8000000000000000) (G : StrengthGraph V n)
    (labels : Vector Label n) (diagonal : Vector W n) (firstOnly : Bool) :
    (∀ capacity : Int, 1 ≤ capacity →
      FailsAtFirstCrowded G labels firstOnly capacity
        (rowSizes G labels firstOnly (some capacity) .full : Except (Fault R) (List Nat)) ∧
      FailsAtFirstCrowded G labels firstOnly capacity
        (fill G labels diagonal firstOnly (some capacity) .full
          (rowPointer (rowPoints G labels firstOnly)) n : Except (Fault R) (RowBuffer V n))) ∧
    (∀ (given given' : Option Int) (sizes sizes' : List Nat),
      rowSizes G labels firstOnly given .full = (.ok sizes : Except (Fault R) (List Nat)) →
      rowSizes G labels firstOnly given' .full = (.ok sizes' : Except (Fault R) (List Nat)) →
      sizes' = sizes ∧
      runningTotals (sizes.map Int.ofNat) = rowPointer (rowPoints G labels firstOnly) ∧
      ∀ (pointer : List Int) (width : Nat),
        fill G labels diagonal firstOnly given' .full pointer width =
          (fill G labels diagonal firstOnly given .full pointer width :
            Except (Fault R) (RowBuffer V n))) ∧
    (∃ k, 5 ≤ k ∧ chosenCapacity G labels firstOnly none = (2 ^ k : Nat) ∧
      (∀ i, labels.get i ≠ .coarse → reachCount G labels firstOnly i < 2 ^ k)) ∧
    ∃ sizes buffer,
      rowSizes G labels firstOnly none .full = (.ok sizes : Except (Fault R) (List Nat)) ∧
      fill G labels diagonal firstOnly none .full (runningTotals (sizes.map Int.ofNat)) n =
        (.ok buffer : Except (Fault R) (RowBuffer V n)) := by
  refine ⟨fun capacity hcapacity => ⟨?_, ?_⟩, ?_, ?_, exists_fill_eq_ok hn⟩
  · exact rowSizes_failsAtFirstCrowded hn hcapacity G labels firstOnly
  · exact fill_failsAtFirstCrowded hn hcapacity
  · intro given given' sizes sizes' h h'
    have hsizes := eq_map_of_rowSizes_eq_ok h
    have hsizes' := eq_map_of_rowSizes_eq_ok h'
    refine ⟨hsizes'.trans hsizes.symm, by rw [hsizes]; rfl, fill_congr h h'⟩
  · obtain ⟨k, hk, hcapacity⟩ := exists_chosenCapacity_eq G labels firstOnly
    refine ⟨k, hk, hcapacity, fun i hi => ?_⟩
    have hlt := reachCount_lt_chosenCapacity G labels firstOnly hi
    rw [hcapacity] at hlt
    exact_mod_cast hlt

end Rows

/-- A point with a coarse neighbour, and a fine point next to it with a coarse neighbour of its own.
-/
def forked : StrengthGraph Rat 4 :=
  .ofMatrix (1 / 4) (.ofDense !![1, 0, -1, 0; -1, 3, 0, -2; 0, 0, 1, 0; 0, 0, 0, 1])

/-- The two neighbours are coarse. -/
def forkedLabels : Vector Label 4 := ⟨#[.fine, .fine, .coarse, .coarse], rfl⟩

/-- One slot is too few for the second row of the forked operator, and two are as good as 32. -/
theorem overflow_forked :
    4 ≤ 0x8000000000000000 ∧ IsFirstCrowded forked forkedLabels false 1 1 ∧
    rowSizes forked forkedLabels false (some 1) .full =
      (.error (.tableFull 1 (some 1)) : Except (Fault Unit) (List Nat)) ∧
    rowSizes forked forkedLabels false (some 2) .full =
      (.ok [1, 2, 1, 1] : Except (Fault Unit) (List Nat)) ∧
    ∀ (pointer : List Int) (width : Nat),
      fill forked forkedLabels (#v[1, 3, 1, 1] : Vector Rat 4) false (some 2) .full
          pointer width =
        (fill forked forkedLabels (#v[1, 3, 1, 1] : Vector Rat 4) false none .full
          pointer width : Except (Fault Unit) (RowBuffer Rat 4)) := by
  have hn : 4 ≤ 0x8000000000000000 := by decide
  have hcount (i : Fin 4) := (length_reachedPoints forked forkedLabels false i).symm
  have hfirst : IsFirstCrowded forked forkedLabels false 1 1 := by
    refine ⟨⟨by decide, ?_⟩, fun j hj hcrowded => ?_⟩
    · rw [hcount]
      decide +kernel
    · obtain rfl : j = 0 := by omega
      have hlt := hcrowded.2
      rw [hcount] at hlt
      revert hlt
      decide +kernel
  have hnone : rowSizes forked forkedLabels false none .full =
      (.ok [1, 2, 1, 1] : Except (Fault Unit) (List Nat)) := by
    with_unfolding_all rfl
  have htwo : rowSizes forked forkedLabels false (some 2) .full =
      (.ok [1, 2, 1, 1] : Except (Fault Unit) (List Nat)) := by
    with_unfolding_all rfl
  obtain ⟨hfails, hsame, -⟩ := capacity_decides_overflow_only (R := Unit) hn forked forkedLabels
    (#v[1, 3, 1, 1] : Vector Rat 4) false
  exact ⟨hn, hfirst, ((hfails 1 le_rfl).1.eq_error_iff _).mpr ⟨1, hfirst, rfl⟩, htwo,
    (hsame none (some 2) _ _ hnone htwo).2.2⟩

end Extended

end Multigrid
