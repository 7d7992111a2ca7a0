import Multigrid.Proofs.Interpolation.Gather
import Multigrid.Proofs.Interpolation.Rows
import Multigrid.Proofs.Table.Agreement

/-!
# Rows and the capacity of tables

The capacity of a table decides about every home slot, every search and the order of the slots, and
still a row does not depend on it.  Amounts are added under keys, in the order in which the entries
are read, and listed in the order of the keys.  So the sums of every key are taken in the same order
whatever the capacity is, and rounding does not come into it.  All that a capacity can do is to be
too small for the points that a row reaches.

## Main definitions

* `Extended.reachCount`: the number of points that a point reaches
* `Extended.IsCrowded`: a row that reaches more points than a table has slots
* `Extended.Gathered.Alike`: amounts that differ in the layout of the table at most

## Main results

* `Extended.gather_alike`: what a row gathers in tables of different sizes
* `Extended.reachTable_cases`: a table is full, or holds all points
* `Extended.reachCount_lt_chosenCapacity`: the capacity that a graph asks for
* `Extended.eq_of_row_eq_ok`: the rows for any two capacities
-/

namespace Multigrid

namespace Extended

variable {α V W R : Type} {n : Nat}

/-! ## Gathering -/

section Gather

variable [Arith V] [Arith W]

/-- The tables have the same contents, and the other amounts are the same. -/
structure Gathered.Alike (g g' : Gathered V W) : Prop where
  /-- The tables. -/
  table : g.table.SameContents g'.table
  /-- What is returned. -/
  returned : g'.returned = g.returned
  /-- What is lumped. -/
  lumped : g'.lumped = g.lumped

variable [Storage V V W] (G : StrengthGraph V n) (labels : Vector Label n) (diagonal : Vector W n)
  (i : Fin n) {t t' : ProbingTable V} {g g' : Gathered V W}

omit [Arith W] in
theorem deposit_sameContents (h : t.SameContents t') (k : Fin n) (x : W) :
    (deposit t k x).SameContents (deposit t' k x) := by
  unfold deposit
  rcases h.add?_cases (val_ne_reservedKey k) (Storage.narrow x) with
    ⟨hnone, hnone'⟩ | ⟨s, s', hs, hs', hsame⟩
  · rwa [hnone, hnone']
  · rwa [hs, hs']

theorem sharedSum_congr (h : t.SameContents t') (k : Fin n) :
    sharedSum G labels diagonal t' i k = sharedSum G labels diagonal t i k := by
  unfold sharedSum
  simp only [h.contains_eq (val_ne_reservedKey _)]

theorem distribute_alike (h : g.Alike g') (k : Fin n) (x : W) :
    (distribute G labels diagonal i k x g).Alike (distribute G labels diagonal i k x g') := by
  simp only [distribute, sharedSum_congr G labels diagonal i h.table k]
  refine ⟨?_, ?_, h.lumped⟩
  · exact List.foldl_rel h.table fun c _ s s' hs => deposit_sameContents hs c.column _
  · simp only [h.returned]

/-- What a fine neighbour hands on. -/
theorem handOn_alike (h : g.Alike g') (c : Connection V n) :
    (if c.strong ∧ labels.get c.column = .fine then
        distribute G labels diagonal i c.column (Storage.widen c.value) g else g).Alike
      (if c.strong ∧ labels.get c.column = .fine then
        distribute G labels diagonal i c.column (Storage.widen c.value) g' else g') := by
  split_ifs
  · exact distribute_alike G labels diagonal i h c.column _
  · exact h

omit [Storage V V W] in
/-- What is lumped of an entry that is not in the table. -/
theorem lump_alike (h : g.Alike g') (c : Connection V n) (x : W) :
    (if c.strong then g else { g with lumped := g.lumped + x }).Alike
      (if c.strong then g' else { g' with lumped := g'.lumped + x }) := by
  split_ifs
  · exact h
  · exact ⟨h.table, h.returned, congrArg (· + x) h.lumped⟩

theorem gatherEntry_alike (h : g.Alike g') (c : Connection V n) :
    (gatherEntry G labels diagonal i g c).Alike (gatherEntry G labels diagonal i g' c) := by
  have hhanded := handOn_alike G labels diagonal i h c
  unfold gatherEntry
  dsimp only
  generalize (if c.strong ∧ labels.get c.column = .fine then
    distribute G labels diagonal i c.column (Storage.widen c.value) g else g) = g₁ at hhanded ⊢
  generalize (if c.strong ∧ labels.get c.column = .fine then
    distribute G labels diagonal i c.column (Storage.widen c.value) g' else g') = g₂ at hhanded ⊢
  have hlumped := lump_alike hhanded c (Storage.widen c.value : W)
  by_cases hcoarse : labels.get c.column = .coarse
  · rcases hhanded.table.add?_cases (val_ne_reservedKey c.column)
      (Storage.narrow (Storage.widen c.value : W)) with
      ⟨hnone, hnone'⟩ | ⟨s, s', hs, hs', hsame⟩
    · simpa only [if_pos hcoarse, hnone, hnone'] using hlumped
    · simp only [if_pos hcoarse, hs, hs']
      exact ⟨hsame, hhanded.returned, hhanded.lumped⟩
  · simpa only [if_neg hcoarse] using hlumped

/-- A row gathers the same amounts in tables with the same contents. -/
theorem gather_alike (h : t.SameContents t') :
    (gather G labels diagonal i t).Alike (gather G labels diagonal i t') :=
  List.foldl_rel ⟨h, rfl, rfl⟩ fun c _ _ _ hg => gatherEntry_alike G labels diagonal i hg c

theorem weights_congr (h : t.SameContents t') :
    weights G labels diagonal i t' = weights G labels diagonal i t := by
  have hgather := gather_alike G labels diagonal i h
  have hfactor (x : W) : (gather G labels diagonal i t').factor x =
      (gather G labels diagonal i t).factor x := by
    rw [Gathered.factor, Gathered.factor, hgather.returned, hgather.lumped]
  simp only [weights, hgather.table.sortedEntries_eq, hfactor]

end Gather

/-! ## Tables -/

section Table

variable (G : StrengthGraph α n) (labels : Vector Label n) (firstOnly : Bool)

/-- The number of points that point `i` reaches. -/
noncomputable def reachCount (i : Fin n) : Nat := {l | Reaches G labels firstOnly i l}.ncard

/-- Row `i` is not the one of a coarse point, and reaches more points than there are slots. -/
def IsCrowded (capacity : Int) (i : Fin n) : Prop :=
  labels.get i ≠ .coarse ∧ capacity < reachCount G labels firstOnly i

theorem length_reachedPoints (i : Fin n) :
    (reachedPoints G labels firstOnly i).length = reachCount G labels firstOnly i := by
  have hset : {l | Reaches G labels firstOnly i l} =
      ((reachedPoints G labels firstOnly i).toFinset : Set (Fin n)) := by
    ext l
    rw [Finset.mem_coe, List.mem_toFinset, mem_reachedPoints]
    rfl
  rw [reachCount, hset, Set.ncard_coe_finset,
    List.toFinset_card_of_nodup (pairwise_reachedPoints G labels firstOnly i).nodup]

theorem card_reachedKeys (i : Fin n) :
    (reachedKeys G labels firstOnly i).toFinset.card = reachCount G labels firstOnly i := by
  have hkeys : (reachedKeys G labels firstOnly i).toFinset =
      (reachedPoints G labels firstOnly i).toFinset.image fun l : Fin n => (l.val : Int) := by
    ext key
    rw [List.mem_toFinset, mem_reachedKeys, Finset.mem_image, List.mem_map]
    simp only [List.mem_toFinset]
  have hinjective : Function.Injective fun l : Fin n => (l.val : Int) := fun l m heq =>
    Fin.ext (Int.ofNat.inj heq)
  rw [hkeys, Finset.card_image_of_injective _ hinjective,
    List.toFinset_card_of_nodup (pairwise_reachedPoints G labels firstOnly i).nodup,
    length_reachedPoints]

/-- A table with too few slots for the points of a row gets full; any other one holds them. -/
theorem reachTable_cases (hn : n ≤ 0x8000000000000000) {capacity : Int} (hcapacity : 1 ≤ capacity)
    (i : Fin n) (blank : V) :
    ((reachCount G labels firstOnly i : Int) ≤ capacity ∧ ∃ t : ProbingTable V,
        reachTable G labels firstOnly capacity blank i =
          (.ok t : Except (Fault R) (ProbingTable V))) ∨
      (capacity < reachCount G labels firstOnly i ∧
        reachTable G labels firstOnly capacity blank i =
          (.error (.tableFull capacity (some i)) : Except (Fault R) (ProbingTable V))) := by
  obtain ⟨slots, rfl⟩ : ∃ slots : Nat, capacity = slots :=
    ⟨_, (Int.toNat_of_nonneg (by omega)).symm⟩
  have hpos : 0 < slots := by omega
  have hkeys : ∀ key ∈ reachedKeys G labels firstOnly i, ProbingTable.IsKey key := by
    intro key hkey
    obtain ⟨l, -, rfl⟩ := List.mem_map.mp hkey
    exact isKey_val hn l
  have hcard : ((ProbingTable.empty slots hpos (some i) blank).storedKeys ∪
      (reachedKeys G labels firstOnly i).toFinset).card = reachCount G labels firstOnly i := by
    rw [ProbingTable.storedKeys_empty, Finset.empty_union, card_reachedKeys]
  rw [reachTable, ProbingTable.create_eq_ok (h := hpos)]
  rcases le_or_gt (reachCount G labels firstOnly i) slots with hle | hlt
  · obtain ⟨t, ht, -⟩ := ProbingTable.exists_insertAll (R := R) _
      (ProbingTable.empty slots hpos (some i) blank) ProbingTable.isValid_empty hkeys
      (hcard.trans_le hle)
    exact .inl ⟨by exact_mod_cast hle, t, ht⟩
  · exact .inr ⟨by exact_mod_cast hlt, ProbingTable.insertAll_eq_tableFull _
      (ProbingTable.empty slots hpos (some i) blank) ProbingTable.isValid_empty hkeys
      (hlt.trans_eq hcard.symm)⟩

/-- The capacity that a graph asks for is a power of two from 32 on. -/
theorem exists_chosenCapacity_eq :
    ∃ k, 5 ≤ k ∧ chosenCapacity G labels firstOnly none = (2 ^ k : Nat) := by
  obtain ⟨most, hmost⟩ : ∃ most, most =
      (((reachBounds G labels firstOnly).toList.map Int.ofNat).foldl max 0).toNat := ⟨_, rfl⟩
  refine ⟨max 5 (most.log2 + 1), le_max_left _ _, ?_⟩
  rw [chosenCapacity, tableCapacity, ← hmost, Nat.one_shiftLeft, show 32 = 2 ^ 5 by norm_num,
    (pow_right_mono₀ (by norm_num : 1 ≤ 2)).map_max]

/-- It is above the number of points that any row reaches. -/
theorem reachCount_lt_chosenCapacity {i : Fin n} (hi : labels.get i ≠ .coarse) :
    (reachCount G labels firstOnly i : Int) < chosenCapacity G labels firstOnly none := by
  have hle := List.toFinset_card_le (reachedKeys G labels firstOnly i)
  rw [card_reachedKeys, reachedKeys, List.length_map] at hle
  exact (by exact_mod_cast hle : (_ : Int) ≤ _).trans_lt (length_reached_lt G labels firstOnly hi)

end Table

/-! ## Rows -/

section Rows

variable [Arith V] [Arith W] [Storage V V W] {G : StrengthGraph V n} {labels : Vector Label n}
  {firstOnly : Bool} {i : Fin n} {diagonal : Vector W n}

/-- Two capacities give the same row, if both give one. -/
theorem eq_of_row_eq_ok {capacity capacity' : Int} {entries entries' : List (Entry n V)}
    (h : row G labels diagonal firstOnly capacity i =
      (.ok entries : Except (Fault R) (List (Entry n V))))
    (h' : row G labels diagonal firstOnly capacity' i =
      (.ok entries' : Except (Fault R) (List (Entry n V)))) : entries' = entries := by
  by_cases hi : labels.get i = .coarse
  · rw [eq_unit_of_row_eq_ok hi h, eq_unit_of_row_eq_ok hi h']
  · obtain ⟨t, hvalid, hstored, hblank, rfl⟩ := exists_table_of_row_eq_ok hi h
    obtain ⟨t', hvalid', hstored', hblank', rfl⟩ := exists_table_of_row_eq_ok hi h'
    have hkeys : ∀ key ∈ t.storedKeys, key ≠ ProbingTable.reservedKey := fun key hkey =>
      ne_reservedKey_of_mem_reachedKeys (List.mem_toFinset.mp (hstored ▸ hkey))
    exact weights_congr G labels diagonal i (.of_isBlank hvalid hvalid' hkeys
      (hstored'.trans hstored.symm) hblank hblank')

end Rows

/-! ## Overflow -/

section Overflow

open Classical in
/-- The fault of a row that reaches more points than a table has slots. -/
noncomputable def crowdedFault (G : StrengthGraph α n) (labels : Vector Label n) (firstOnly : Bool)
    (capacity : Int) (i : Fin n) : Option (Fault R) :=
  if IsCrowded G labels firstOnly capacity i then some (.tableFull capacity (some i)) else none

variable (hn : n ≤ 0x8000000000000000) {capacity : Int} (hcapacity : 1 ≤ capacity)

include hn hcapacity

theorem rowSize_eq_elim (G : StrengthGraph α n) (labels : Vector Label n) (firstOnly : Bool)
    (i : Fin n) : rowSize G labels firstOnly capacity i =
      ((crowdedFault G labels firstOnly capacity i).elim
        (.ok (rowPoints G labels firstOnly i).length) .error : Except (Fault R) Nat) := by
  unfold rowSize crowdedFault
  by_cases hi : labels.get i = .coarse
  · rw [if_pos hi, if_neg fun h => h.1 hi, rowPoints, if_pos hi]
    rfl
  · rw [if_neg hi]
    rcases reachTable_cases (R := R) G labels firstOnly hn hcapacity i () with
      ⟨hle, t, ht⟩ | ⟨hlt, ht⟩
    · obtain ⟨hvalid, hstored, -⟩ := of_reachTable_eq_ok ht
      rw [if_neg fun h => hle.not_gt h.2, ht, rowPoints, if_neg hi]
      show Except.ok t.size = _
      rw [← hvalid.length_sortedKeys, sortedKeys_eq_map_reachedPoints hvalid hstored,
        List.length_map, Option.elim_none]
    · rw [if_pos ⟨hi, hlt⟩, ht]
      rfl

variable [Arith V] [Arith W] [Storage V V W]

/-- Rows that are built with a capacity that the graph asks for, under another capacity. -/
theorem row_eq_elim {G : StrengthGraph V n} {labels : Vector Label n} {diagonal : Vector W n}
    {firstOnly : Bool} {rows : Fin n → List (Entry n V)}
    (hrow : ∀ i, row G labels diagonal firstOnly (chosenCapacity G labels firstOnly none) i =
      (.ok (rows i) : Except (Fault R) (List (Entry n V)))) (i : Fin n) :
    row G labels diagonal firstOnly capacity i =
      ((crowdedFault G labels firstOnly capacity i).elim (.ok (rows i)) .error :
        Except (Fault R) (List (Entry n V))) := by
  unfold crowdedFault
  split_ifs with h
  · rcases reachTable_cases (R := R) G labels firstOnly hn hcapacity i (0 : V) with
      ⟨hle, -⟩ | ⟨-, ht⟩
    · exact absurd h.2 hle.not_gt
    · rw [row, if_neg h.1, ht]
      rfl
  · obtain ⟨size, hsize⟩ : ∃ size, rowSize G labels firstOnly capacity i =
        (.ok size : Except (Fault R) Nat) :=
      ⟨_, (rowSize_eq_elim hn hcapacity G labels firstOnly i).trans (by
        rw [crowdedFault, if_neg h, Option.elim_none])⟩
    obtain ⟨entries, hentries⟩ := exists_row_of_rowSize_eq_ok diagonal hsize
    rw [hentries, eq_of_row_eq_ok (hrow i) hentries, Option.elim_none]

end Overflow

end Extended

end Multigrid
