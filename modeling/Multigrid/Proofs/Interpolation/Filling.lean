import Multigrid.Proofs.Interpolation.Structure
import Multigrid.Proofs.Sparse.RowPointer

/-!
# Filling under any row pointer

Rows are written one after the other, each from its own position on, and the first row with a fault
ends the filling.  A row that is not coarse has a fault if it cannot be built or if the slots that
the row pointer reserves for it are not as many as its entries.  The slots of a coarse row are not
counted.  Its entry is written at its position, wherever the next row begins, and its only fault is
a position behind the last slot.

What is written when a row is reached are the slots of the rows before it, and at most one slot
more: a coarse row without any slot has written into the slot of the row behind it.  That row
overwrites it.

## Main definitions

* `Extended.reservedSlots`: what the slots of a row hold in the end
* `Extended.rowFault`: the fault of a row
* `Extended.IsFilledUpTo`: a buffer in which leading rows are written

## Main results

* `Extended.fillRow_cases`: writing a row
* `Extended.fill_eq_elim`: writing all rows
-/

namespace Multigrid

variable {ε β : Type} {n : Nat}

/-! ## The first fault -/

theorem lt_of_finRange_eq {pre post : List (Fin n)} {i : Fin n}
    (h : List.finRange n = pre ++ i :: post) {j : Fin n} : j ∈ pre ↔ j < i := by
  have hsorted := List.pairwise_lt_finRange n
  rw [h, List.pairwise_append] at hsorted
  obtain ⟨-, hpost, hcross⟩ := hsorted
  refine ⟨fun hj => hcross j hj i List.mem_cons_self, fun hj => ?_⟩
  have hmem : j ∈ pre ++ i :: post := h ▸ List.mem_finRange j
  rcases List.mem_append.mp hmem with hpre | hrest
  · exact hpre
  · rcases List.mem_cons.mp hrest with rfl | hpost'
    · exact absurd hj (lt_irrefl j)
    · exact absurd ((List.pairwise_cons.mp hpost).1 j hpost') hj.not_gt

/-- The first fault is the one of a row before which no row has any. -/
theorem findSome?_finRange_eq_some_iff {fault : Fin n → Option ε} {e : ε} :
    (List.finRange n).findSome? fault = some e ↔
      ∃ i, fault i = some e ∧ ∀ j < i, fault j = none := by
  rw [List.findSome?_eq_some_iff]
  constructor
  · rintro ⟨pre, i, post, h, hi, hpre⟩
    exact ⟨i, hi, fun j hj => hpre j ((lt_of_finRange_eq h).mpr hj)⟩
  · rintro ⟨i, hi, hbefore⟩
    obtain ⟨pre, post, h⟩ := List.append_of_mem (List.mem_finRange i)
    exact ⟨pre, i, post, h, hi, fun j hj => hbefore j ((lt_of_finRange_eq h).mp hj)⟩

/-- Steps that keep up with the rows, or fail with the fault of the row that they are at. -/
theorem foldlM_finRange_cases {step : β → Fin n → Except ε β} {fault : Fin n → Option ε}
    (keepsUp : List (Fin n) → β → Prop)
    (hstep : ∀ pre i post b, List.finRange n = pre ++ i :: post → keepsUp pre b →
      (∃ b', fault i = none ∧ step b i = .ok b' ∧ keepsUp (pre ++ [i]) b') ∨
        ∃ e, fault i = some e ∧ step b i = .error e)
    {start : β} (hstart : keepsUp [] start) :
    (∃ b, (List.finRange n).findSome? fault = none ∧
        (List.finRange n).foldlM step start = .ok b ∧ keepsUp (List.finRange n) b) ∨
      ∃ e, (List.finRange n).findSome? fault = some e ∧
        (List.finRange n).foldlM step start = .error e := by
  -- by induction on the rows that are left
  have hfrom (post pre : List (Fin n)) (b : β) (h : List.finRange n = pre ++ post)
      (hb : keepsUp pre b) :
      (∃ b', post.findSome? fault = none ∧ post.foldlM step b = .ok b' ∧
          keepsUp (pre ++ post) b') ∨
        ∃ e, post.findSome? fault = some e ∧ post.foldlM step b = .error e := by
    induction post generalizing pre b with
    | nil => exact .inl ⟨b, rfl, rfl, by rwa [List.append_nil]⟩
    | cons i post ih =>
      rw [List.findSome?_cons, List.foldlM_cons]
      rcases hstep pre i post b h hb with ⟨b', hfault, hrun, hb'⟩ | ⟨e, hfault, hrun⟩
      · rw [hfault, hrun]
        have hrest := ih (pre ++ [i]) b' (by rw [h, List.append_assoc, List.singleton_append]) hb'
        rwa [List.append_assoc, List.singleton_append] at hrest
      · rw [hfault, hrun]
        exact .inr ⟨e, rfl, rfl⟩
  exact hfrom _ [] start rfl hstart

namespace Extended

variable {V W R : Type}

/-! ## Slots -/

section Slots

variable (pointer : List Int) (rows : Fin n → List (Entry n V))

/-- What the slots of row `i` hold in the end: the leading entries of the row, as far as there are
slots for them, and nothing behind them. -/
def reservedSlots (i : Fin n) : List (Option (Entry n V)) :=
  ((rows i).map some ++ List.replicate (reserved pointer i).toNat none).take
    (reserved pointer i).toNat

theorem length_reservedSlots (i : Fin n) :
    (reservedSlots pointer rows i).length = (reserved pointer i).toNat := by
  simp [reservedSlots]

/-- The slots of the rows `pre` are written and at most one slot behind them. -/
def IsFilledUpTo (pre : List (Fin n)) (buffer : RowBuffer V n) : Prop :=
  ∃ tail, buffer = ⟨pointer, n, (pre.flatMap (reservedSlots pointer rows) ++ tail).toArray⟩ ∧
    (∀ slot ∈ tail.drop 1, slot = none) ∧
    (pre.flatMap (reservedSlots pointer rows)).length + tail.length =
      (rowEntries (reservedSlots pointer rows)).length

variable {pointer rows}

theorem drop_eq_replicate {tail : List (Option β)} (htail : ∀ slot ∈ tail.drop 1, slot = none)
    {k : Nat} (hk : 0 < k) : tail.drop k = List.replicate (tail.length - k) none := by
  rw [List.eq_replicate_iff, List.length_drop]
  refine ⟨rfl, fun slot hslot => htail slot ?_⟩
  rw [← Nat.add_sub_cancel' (Nat.succ_le_of_lt hk), ← List.drop_drop] at hslot
  exact List.mem_of_mem_drop hslot

/-- The entries of a row in front of slots of which none but the first is written. -/
theorem exists_reservedSlots_append {i : Fin n} {tail : List (Option (Entry n V))}
    (htail : ∀ slot ∈ tail.drop 1, slot = none)
    (hlength : (rows i).length ≤ (reserved pointer i).toNat + 1)
    (hentries : (rows i).length ≤ tail.length) (hslots : (reserved pointer i).toNat ≤ tail.length)
    (hempty : rows i = [] → (reserved pointer i).toNat = 0) :
    ∃ tail', (rows i).map some ++ tail.drop (rows i).length =
        reservedSlots pointer rows i ++ tail' ∧
      (∀ slot ∈ tail'.drop 1, slot = none) ∧
      tail'.length = tail.length - (reserved pointer i).toNat := by
  rw [reservedSlots]
  generalize (reserved pointer i).toNat = count at hlength hslots hempty ⊢
  by_cases hrow : rows i = []
  · exact ⟨tail, by simp [hrow, hempty hrow], htail, by rw [hempty hrow, Nat.sub_zero]⟩
  -- behind the first entry all slots are open
  rw [drop_eq_replicate htail (List.length_pos_of_ne_nil hrow)]
  refine ⟨((rows i).map some ++ List.replicate (tail.length - (rows i).length) none).drop count,
    ?_, ?_, ?_⟩
  · have htake : ((rows i).map some ++
          List.replicate (tail.length - (rows i).length) none).take count =
        ((rows i).map some ++ List.replicate count none).take count := by
      rw [List.take_append, List.take_append, List.take_replicate, List.take_replicate,
        List.length_map]
      congr 2
      omega
    rw [← htake, List.take_append_drop]
  · intro slot hslot
    rw [List.drop_drop, List.drop_append, List.drop_of_length_le (by rw [List.length_map]; omega),
      List.nil_append] at hslot
    exact List.eq_of_mem_replicate (List.mem_of_mem_drop hslot)
  · simp only [List.length_drop, List.length_append, List.length_map, List.length_replicate]
    omega

variable (pointer rows) in
theorem length_add_le {pre post : List (Fin n)} {i : Fin n}
    (h : List.finRange n = pre ++ i :: post) :
    (pre.flatMap (reservedSlots pointer rows)).length + (reserved pointer i).toNat ≤
      (rowEntries (reservedSlots pointer rows)).length := by
  rw [rowEntries, h, List.flatMap_append, List.flatMap_cons, List.length_append, List.length_append,
    length_reservedSlots]
  omega

/-- A row with entries for its slots, or for the first of them, is written. -/
theorem exists_writeAll_eq_ok {pre post : List (Fin n)} {i : Fin n}
    (h : List.finRange n = pre ++ i :: post) {tail : List (Option (Entry n V))}
    (htail : ∀ slot ∈ tail.drop 1, slot = none)
    (htotal : (pre.flatMap (reservedSlots pointer rows)).length + tail.length =
      (rowEntries (reservedSlots pointer rows)).length)
    (hlength : (rows i).length ≤ (reserved pointer i).toNat + 1)
    (hentries : (rows i).length ≤ tail.length)
    (hempty : rows i = [] → (reserved pointer i).toNat = 0) :
    ∃ buffer, (⟨pointer, n, (pre.flatMap (reservedSlots pointer rows) ++ tail).toArray⟩ :
          RowBuffer V n).writeAll (RowBuffer.placed
            (pre.flatMap (reservedSlots pointer rows)).length (rows i)) =
        (.ok buffer : Except (Fault R) (RowBuffer V n)) ∧
      IsFilledUpTo pointer rows (pre ++ [i]) buffer := by
  have hslots := length_add_le pointer rows h
  obtain ⟨tail', hsplit, htail', hlength'⟩ :=
    exists_reservedSlots_append htail hlength hentries (by omega) hempty
  refine ⟨_, RowBuffer.writeAll_next pointer (Nat.le_refl n) (rows i) _ tail hentries,
    tail', ?_, htail', ?_⟩
  · rw [hsplit, List.flatMap_append, List.flatMap_singleton, List.append_assoc]
  · rw [List.flatMap_append, List.flatMap_singleton, List.length_append, length_reservedSlots]
    omega

end Slots

/-! ## Rows -/

section Fill

variable (labels : Vector Label n) (pointer : List Int)

/-- The fault of row `i`, if `missing` says which rows cannot be built and `length` how many entries
the others have. -/
def rowFault (missing : Fin n → Option (Fault R)) (length : Fin n → Nat) (i : Fin n) :
    Option (Fault R) :=
  if labels.get i = .coarse then
    if pointer.getD i 0 < pointer.getD n 0 then none else some .slotOutOfRange
  else (missing i).or (if (length i : Int) = reserved pointer i then none
    else some (.rowMismatch i (length i) (reserved pointer i)))

variable [Arith V] [Arith W] [Storage V V W] {G : StrengthGraph V n} {diagonal : Vector W n}
  {firstOnly : Bool} {capacity : Int} {labels pointer}

theorem fillRow_eq_of_pointer {buffer : RowBuffer V n} {i : Fin n} {start stop : Int}
    (hstart : buffer.pointer[i.val]? = some start)
    (hstop : buffer.pointer[i.val + 1]? = some stop) :
    fillRow G labels diagonal firstOnly capacity buffer i = (do
      let entries ← row G labels diagonal firstOnly capacity i
      if labels.get i ≠ .coarse ∧ (entries.length : Int) ≠ stop - start then
        throw (.rowMismatch i entries.length (stop - start))
      buffer.writeAll (RowBuffer.placed start entries) : Except (Fault R) (RowBuffer V n)) := by
  simp only [fillRow, hstart, hstop]
  refine bind_congr_of_ok fun entries _ => ?_
  by_cases hi : labels.get i = .coarse
  · simp only [hi, ne_eq, not_true_eq_false, if_false, false_and]
    rfl
  · simp only [hi, ne_eq, not_false_eq_true, if_true, true_and]
    split_ifs <;> rfl

variable {missing : Fin n → Option (Fault R)} {rows : Fin n → List (Entry n V)}
  (hpointer : IsRowPointer n pointer)
  (hrow : ∀ i, row G labels diagonal firstOnly capacity i =
    ((missing i).elim (.ok (rows i)) .error : Except (Fault R) (List (Entry n V))))

include hrow in
theorem eq_unit_of_coarse {i : Fin n} (hi : labels.get i = .coarse) :
    missing i = none ∧ rows i = [⟨i, 1⟩] := by
  have hunit := hrow i
  rw [row, if_pos hi] at hunit
  cases hfault : missing i with
  | some fault =>
    rw [hfault] at hunit
    cases hunit
  | none =>
    rw [hfault] at hunit
    exact ⟨rfl, (Except.ok.inj hunit).symm⟩

omit [Arith V] in
include hpointer in
theorem eq_rowPointer_reservedSlots : pointer = rowPointer (reservedSlots pointer rows) :=
  hpointer.eq_rowPointer fun i => by
    rw [length_reservedSlots, Int.toNat_of_nonneg (hpointer.reserved_nonneg i)]

include hpointer hrow

/-- A row is written behind the rows before it, or has a fault. -/
theorem fillRow_cases {pre post : List (Fin n)} {i : Fin n} {buffer : RowBuffer V n}
    (h : List.finRange n = pre ++ i :: post) (hbuffer : IsFilledUpTo pointer rows pre buffer) :
    (∃ buffer', rowFault labels pointer missing (fun i => (rows i).length) i = none ∧
        fillRow G labels diagonal firstOnly capacity buffer i =
          (.ok buffer' : Except (Fault R) (RowBuffer V n)) ∧
        IsFilledUpTo pointer rows (pre ++ [i]) buffer') ∨
      ∃ fault, rowFault labels pointer missing (fun i => (rows i).length) i = some fault ∧
        fillRow G labels diagonal firstOnly capacity buffer i = .error fault := by
  obtain ⟨tail, rfl, htail, htotal⟩ := hbuffer
  have hnonneg := hpointer.reserved_nonneg i
  have hroom := length_add_le pointer rows h
  have heq : pointer = rowPointer (reservedSlots pointer rows) :=
    eq_rowPointer_reservedSlots hpointer
  have hstart : pointer[i.val]? =
      some ((pre.flatMap (reservedSlots pointer rows)).length : Int) := by
    rw [val_eq_length h]
    exact (congrArg (·[pre.length]?) heq).trans (getElem?_rowPointer h)
  have hstop : pointer[i.val + 1]? = some ((pre.flatMap (reservedSlots pointer rows)).length +
      (reservedSlots pointer rows i).length : Int) := by
    rw [val_eq_length h]
    exact (congrArg (·[pre.length + 1]?) heq).trans (getElem?_rowPointer_succ h)
  have hgap : ((pre.flatMap (reservedSlots pointer rows)).length +
      (reservedSlots pointer rows i).length : Int) -
        (pre.flatMap (reservedSlots pointer rows)).length = reserved pointer i := by
    rw [length_reservedSlots, Int.toNat_of_nonneg hnonneg]
    omega
  rw [fillRow_eq_of_pointer hstart hstop, hgap, hrow i]
  unfold rowFault
  by_cases hi : labels.get i = .coarse
  · obtain ⟨hnone, hunit⟩ := eq_unit_of_coarse hrow hi
    have hlast : pointer.getD n 0 = (rowEntries (reservedSlots pointer rows)).length := by
      have hfull : (rowPointer (reservedSlots pointer rows))[(List.finRange n).length]? = _ :=
        getElem?_rowPointer (List.append_nil (List.finRange n)).symm
      rw [List.length_finRange, ← heq] at hfull
      rw [List.getD_eq_getElem?_getD, hfull]
      rfl
    rw [if_pos hi, hnone, List.getD_eq_getElem?_getD, hstart, hlast, Option.getD_some]
    by_cases hslot : (pre.flatMap (reservedSlots pointer rows)).length <
        (rowEntries (reservedSlots pointer rows)).length
    · obtain ⟨buffer', hwrite, hfilled⟩ := exists_writeAll_eq_ok (R := R) h htail htotal
        (by simp [hunit]) (by rw [hunit, List.length_singleton]; omega) (by simp [hunit])
      refine .inl ⟨buffer', if_pos (by exact_mod_cast hslot), bind_eq_ok rfl ?_, hfilled⟩
      rw [if_neg fun hne => hne.1 hi]
      exact hwrite
    · -- behind the last slot there is nothing to write to
      obtain rfl : tail = [] := List.eq_nil_of_length_eq_zero (by omega)
      refine .inr ⟨_, if_neg (by exact_mod_cast hslot), ?_⟩
      show (if _ then _ else _) = _
      rw [if_neg fun hne => hne.1 hi, hunit, RowBuffer.placed_cons, RowBuffer.writeAll_cons,
        List.append_nil, RowBuffer.write_last (Nat.le_refl n)]
      rfl
  · rw [if_neg hi]
    cases missing i with
    | some fault => exact .inr ⟨fault, rfl, rfl⟩
    | none =>
      by_cases hlength : ((rows i).length : Int) = reserved pointer i
      · obtain ⟨buffer', hwrite, hfilled⟩ := exists_writeAll_eq_ok (R := R) h htail htotal
          (by omega) (by omega) (fun hnil => by rw [hnil, List.length_nil] at hlength; omega)
        refine .inl ⟨buffer', if_pos hlength, bind_eq_ok rfl ?_, hfilled⟩
        rw [if_neg fun hne => hne.2 hlength]
        exact hwrite
      · exact .inr ⟨_, if_neg hlength, if_pos ⟨hi, hlength⟩⟩

variable (missing) in
/-- All rows are written, or the first row that has a fault ends the filling. -/
theorem fill_eq_elim {given : Option Int}
    (hgiven : chosenCapacity G labels firstOnly given = capacity) :
    fill G labels diagonal firstOnly given .full pointer n =
      (((List.finRange n).findSome? (rowFault labels pointer missing fun i => (rows i).length)).elim
        (.ok ⟨pointer, n, (rowEntries (reservedSlots pointer rows)).toArray⟩) .error :
          Except (Fault R) (RowBuffer V n)) := by
  have heq : pointer = rowPointer (reservedSlots pointer rows) :=
    eq_rowPointer_reservedSlots hpointer
  obtain ⟨total, htotal⟩ : ∃ total, total = (rowEntries (reservedSlots pointer rows)).length :=
    ⟨_, rfl⟩
  have hreserve : RowBuffer.reserve pointer n = (.ok (RowBuffer.filled pointer n [] total) :
      Except (Fault R) (RowBuffer V n)) := by
    apply RowBuffer.reserve_eq_ok
    rw [htotal]
    exact (congrArg List.getLast? heq).trans getLast?_rowPointer
  have hstart : IsFilledUpTo pointer rows [] (RowBuffer.filled pointer n [] total) :=
    ⟨List.replicate total none, rfl, fun slot hslot =>
      List.eq_of_mem_replicate (List.mem_of_mem_drop hslot), by simp [htotal]⟩
  subst hgiven
  rcases foldlM_finRange_cases (IsFilledUpTo pointer rows)
    (fun pre i post b h hb => fillRow_cases hpointer hrow h hb) hstart with
    ⟨buffer, hnone, hrun, tail, rfl, -, hlength⟩ | ⟨fault, hfault, hrun⟩
  · obtain rfl : tail = [] := List.eq_nil_of_length_eq_zero (by rw [rowEntries] at hlength; omega)
    rw [List.append_nil] at hrun
    rw [hnone, Option.elim_none]
    refine bind_eq_ok hreserve (bind_eq_ok hrun (bind_eq_ok rfl (if_pos ⟨?_, ?_⟩)))
    · exact hpointer.length_eq.trans (congrArg (· + 1) (List.length_finRange (n := n)).symm)
    · exact hpointer.head?_eq
  · rw [hfault, Option.elim_some]
    exact (bind_eq_of_eq_ok hreserve).trans (bind_eq_error hrun)

end Fill

end Extended

end Multigrid
