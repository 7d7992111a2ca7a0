import Multigrid.Proofs.Interpolation.Columns
import Multigrid.Proofs.Table.Values

/-!
# Placing keys by rank

The rank of a key is the number of smaller keys in the table.  Every key is compared with every
other one, so two slots with one key would have one rank, and the position behind it would be left
as it was.  The search for a free slot prevents that: no key is stored twice, so the ranks are the
positions from zero on up to the size, each of them once.

What is placed by rank is therefore a list without gaps, in the order of the keys.  A function on
the keys that is strictly increasing keeps that order, as the numbers of coarse points do.

## Main definitions

* `ProbingTable.ofKeys`: a new table in which keys were registered
* `ProbingTable.IsPlaced`: a list that was written by placing every key at its rank

## Main results

* `ProbingTable.IsValid.perm_ranks`: the ranks are the positions of a list
* `ProbingTable.IsValid.isPlaced_iff`: what is placed by rank is in the order of the keys
* `ProbingTable.ranked_contents`: the contents of a table in which keys were registered
-/

namespace Multigrid

namespace ProbingTable

variable {V R β : Type} {t : ProbingTable V}

/-! ## Ranks as positions -/

/-- In an ascending list the number of smaller items is the position of an item. -/
theorem countP_lt_getElem {keys : List Int} (h : keys.Pairwise (· < ·)) (r : Nat)
    (hr : r < keys.length) : keys.countP (· < keys[r]) = r := by
  -- the first item is smaller than all others, and counts for each of them
  induction keys generalizing r with
  | nil => cases hr
  | cons key keys ih =>
    obtain ⟨hkey, hkeys⟩ := List.pairwise_cons.mp h
    cases r with
    | zero =>
      rw [List.countP_eq_zero]
      intro k hk
      rcases List.mem_cons.mp hk with rfl | hk
      · simp
      · simpa using (hkey k hk).le
    | succ r =>
      have hr : r < keys.length := by simpa using hr
      have hlt : key < keys[r] := hkey _ (List.getElem_mem hr)
      rw [List.getElem_cons_succ, List.countP_cons, ih hkeys r hr]
      simp [hlt]

theorem ranks_eq_map : t.ranks = (t.items.map Prod.snd).map t.rank := rfl

namespace IsValid

variable (ht : t.IsValid)

include ht

theorem perm_sortedKeys : (t.items.map Prod.snd).Perm t.sortedKeys := by
  have hnodup : t.sortedKeys.Nodup := pairwise_sortedKeys.imp fun h => h.ne
  refine (List.perm_ext_iff_of_nodup ht.nodup_items_snd hnodup).mpr fun key => ?_
  rw [mem_items_snd, ht.mem_sortedKeys]

/-- A key is listed at the position that its rank says. -/
theorem rank_getElem_sortedKeys {r : Nat} (hr : r < t.sortedKeys.length) :
    t.rank t.sortedKeys[r] = r := by
  rw [rank, ht.perm_sortedKeys.countP_eq, countP_lt_getElem pairwise_sortedKeys r hr]

theorem map_rank_sortedKeys : t.sortedKeys.map t.rank = List.range t.size := by
  apply List.ext_getElem
  · rw [List.length_map, List.length_range, ht.length_sortedKeys]
  · intro r hr hr'
    have hr : r < t.sortedKeys.length := by simpa using hr
    rw [List.getElem_map, List.getElem_range, ht.rank_getElem_sortedKeys hr]

/-- Every position below the size is the rank of one key. -/
theorem perm_ranks : t.ranks.Perm (List.range t.size) := by
  rw [ranks_eq_map, ← ht.map_rank_sortedKeys]
  exact ht.perm_sortedKeys.map t.rank

theorem getElem?_sortedKeys_rank {key : Int} (h : key ∈ t.storedKeys) :
    t.sortedKeys[t.rank key]? = some key := by
  obtain ⟨r, hr, rfl⟩ := List.getElem_of_mem (ht.mem_sortedKeys.mpr h)
  rw [ht.rank_getElem_sortedKeys hr, List.getElem?_eq_getElem hr]

end IsValid

/-! ## Placing by rank -/

variable (t) in
/-- The list is as long as there are keys, and for every slot in use it has the image of the key at
the position that the rank says. -/
def IsPlaced (f : Int → β) (placed : List β) : Prop :=
  placed.length = t.size ∧
    (t.items.zip t.ranks).Forall fun (item, rank) => placed[rank]? = some (f item.2)

theorem isPlaced_iff_forall {f : Int → β} {placed : List β} : t.IsPlaced f placed ↔
    placed.length = t.size ∧ ∀ key ∈ t.storedKeys, placed[t.rank key]? = some (f key) := by
  have hzip : t.items.zip t.ranks = t.items.map fun item => (item, t.rank item.2) := by
    rw [ranks_eq_map, List.map_map, List.map_prod_left_eq_zip]
    rfl
  simp only [IsPlaced, hzip, List.forall_iff_forall_mem, List.forall_mem_map, ← mem_items_snd]

/-- What is placed by rank is in the order of the keys. -/
theorem IsValid.isPlaced_iff (ht : t.IsValid) {f : Int → β} {placed : List β} :
    t.IsPlaced f placed ↔ placed = t.sortedKeys.map f := by
  rw [isPlaced_iff_forall]
  constructor
  · rintro ⟨hlength, hplaced⟩
    apply List.ext_getElem?
    intro r
    by_cases hr : r < t.sortedKeys.length
    · -- the key listed at a position is placed there, as its rank is that position
      have hat := hplaced _ (ht.mem_sortedKeys.mp (List.getElem_mem hr))
      rw [ht.rank_getElem_sortedKeys hr] at hat
      rw [hat, List.getElem?_map, List.getElem?_eq_getElem hr, Option.map_some]
    · have hlong : t.sortedKeys.length ≤ r := Nat.not_lt.mp hr
      rw [List.getElem?_eq_none (by rwa [hlength, ← ht.length_sortedKeys]),
        List.getElem?_eq_none (by rwa [List.length_map])]
  · rintro rfl
    refine ⟨by rw [List.length_map, ht.length_sortedKeys], fun key hkey => ?_⟩
    rw [List.getElem?_map, ht.getElem?_sortedKeys_rank hkey, Option.map_some]

/-- A map that keeps the order of the keys is placed in ascending order. -/
theorem IsValid.pairwise_of_isPlaced [Preorder β] (ht : t.IsValid) {f : Int → β} {placed : List β}
    (hf : StrictMonoOn f {key | key ∈ t.storedKeys}) (h : t.IsPlaced f placed) :
    placed.Pairwise (· < ·) := by
  rw [ht.isPlaced_iff.mp h, List.pairwise_map]
  exact pairwise_sortedKeys.imp_of_mem fun hkey hkey' hlt =>
    hf (ht.mem_sortedKeys.mp hkey) (ht.mem_sortedKeys.mp hkey') hlt

/-! ## Numbers of coarse points -/

/-- The coarse points among the rows, as keys. -/
def coarseKeys {n : Nat} (labels : Vector Label n) : Set Int :=
  {key | ∃ i : Fin n, labels.get i = .coarse ∧ key = i}

/-- The number of a row among the coarse points. -/
def coarseNumberOf {n : Nat} (labels : Vector Label n) (key : Int) : Nat :=
  (consecutiveNumbers (coarseFlags labels).toList).1.getD key.toNat 0

theorem strictMonoOn_coarseNumberOf {n : Nat} (labels : Vector Label n) :
    StrictMonoOn (coarseNumberOf labels) (coarseKeys labels) := by
  have hnumber (i : Fin n) : coarseNumberOf labels i = (coarseNumbers labels).get i :=
    getD_consecutiveNumbers i
  rintro _ ⟨i, hi, rfl⟩ _ ⟨j, -, rfl⟩ hlt
  rw [hnumber, hnumber]
  exact coarseNumbers_lt_coarseNumbers hi (Int.ofNat_lt.mp hlt)

/-! ## Registered keys -/

/-- A new table in which keys were registered one after the other. -/
def ofKeys (capacity : Int) (owner : Option Int) (blank : V) (keys : List Int) :
    Except (Fault R) (ProbingTable V) := do
  (← create capacity owner blank).insertAll keys

section Registered

variable {capacity : Int} {owner : Option Int} {blank : V} {keys : List Int}

theorem isValid_of_ofKeys (hkeys : ∀ key ∈ keys, IsKey key)
    (h : ofKeys capacity owner blank keys = (.ok t : Except (Fault R) (ProbingTable V))) :
    t.IsValid ∧ t.storedKeys = keys.toFinset := by
  unfold ofKeys at h
  cases hnew : (create capacity owner blank : Except (Fault R) (ProbingTable V)) with
  | error fault =>
    rw [hnew] at h
    cases h
  | ok new =>
    rw [hnew] at h
    obtain ⟨count, hpos, rfl⟩ := exists_of_create_eq_ok hnew
    obtain ⟨hvalid, hstored, -⟩ :=
      isValid_empty.of_insertAll (fun key hkey => (hkeys key hkey).ne_reservedKey) isBlank_empty h
    rw [storedKeys_empty, Finset.empty_union] at hstored
    exact ⟨hvalid, hstored⟩

/-- No key is refused, if there is a slot, and one for every distinct key. -/
theorem exists_ofKeys_eq_ok (hkeys : ∀ key ∈ keys, IsKey key) (hcapacity : 1 ≤ capacity)
    (hroom : keys.toFinset.card ≤ capacity) :
    ∃ t, ofKeys capacity owner blank keys = (.ok t : Except (Fault R) (ProbingTable V)) := by
  have hpos : 0 < capacity.toNat := by omega
  have hnew : create capacity owner blank =
      (.ok (empty capacity.toNat hpos owner blank) : Except (Fault R) (ProbingTable V)) := by
    rw [create, dif_neg (by omega)]
    rfl
  have hcard : keys.toFinset.card ≤ capacity.toNat := by omega
  obtain ⟨t, ht, -⟩ := exists_insertAll (R := R) keys (empty capacity.toNat hpos owner blank)
    isValid_empty hkeys (by rwa [storedKeys_empty, Finset.empty_union])
  refine ⟨t, ?_⟩
  rw [ofKeys, hnew]
  exact ht

/-- In a table in which keys were registered, the ranks are the positions below its size, each of
them once, and the keys in ascending order are the ones that were registered, each of them once,
whatever the capacity is and in which order they came.  A list into which a map of the keys is
written by rank is completely overwritten; if the map is strictly increasing on the keys, as the
numbers of coarse points are, then the list is strictly ascending. -/
theorem ranked_contents (hkeys : ∀ key ∈ keys, IsKey key)
    (ht : ofKeys capacity owner blank keys = (.ok t : Except (Fault R) (ProbingTable V))) :
    t.ranks.Perm (List.range t.size) ∧
      t.sortedKeys.Pairwise (· < ·) ∧ (∀ key, key ∈ t.sortedKeys ↔ key ∈ keys) ∧
      (∀ (V' : Type) (capacity' : Int) (owner' : Option Int) (blank' : V') (keys' : List Int)
        (t' : ProbingTable V'), (∀ key, key ∈ keys' ↔ key ∈ keys) →
        ofKeys capacity' owner' blank' keys' = (.ok t' : Except (Fault R) (ProbingTable V')) →
        t'.sortedKeys = t.sortedKeys) ∧
      t.IsPlaced id t.sortedKeys ∧
      (∀ (β : Type) [Preorder β] (f : Int → β) (columns : List β),
        (t.IsPlaced f columns ↔ columns = t.sortedKeys.map f) ∧
        (StrictMonoOn f {key | key ∈ keys} → t.IsPlaced f columns → columns.Pairwise (· < ·))) ∧
      ∀ (n : Nat) (labels : Vector Label n) (columns : List Nat),
        (∀ key ∈ keys, key ∈ coarseKeys labels) →
        t.IsPlaced (coarseNumberOf labels) columns → columns.Pairwise (· < ·) := by
  obtain ⟨hvalid, hstored⟩ := isValid_of_ofKeys hkeys ht
  have hmem (key : Int) : key ∈ t.storedKeys ↔ key ∈ keys := by rw [hstored, List.mem_toFinset]
  refine ⟨hvalid.perm_ranks, pairwise_sortedKeys, fun key => hvalid.mem_sortedKeys.trans (hmem key),
    ?_, hvalid.isPlaced_iff.mpr (List.map_id _).symm, ?_, ?_⟩
  · intro V' capacity' owner' blank' keys' t' hsame ht'
    obtain ⟨hvalid', hstored'⟩ :=
      isValid_of_ofKeys (fun key hkey => hkeys key ((hsame key).mp hkey)) ht'
    have hstored : t'.storedKeys = t.storedKeys := by
      rw [hstored', hstored]
      exact List.toFinset.ext hsame
    rw [hvalid'.sortedKeys_eq_sort, hvalid.sortedKeys_eq_sort, hstored]
  · intro β _ f columns
    refine ⟨hvalid.isPlaced_iff, fun hf => hvalid.pairwise_of_isPlaced ?_⟩
    simpa only [hmem] using hf
  · intro n labels columns hcoarse
    refine hvalid.pairwise_of_isPlaced ((strictMonoOn_coarseNumberOf labels).mono ?_)
    exact fun key hkey => hcoarse key ((hmem key).mp hkey)

/-- The slots hold the keys in descending order, and the key that comes again takes none.  Another
table has no slot to spare. -/
theorem ranked_contents_descending :
    (∀ key ∈ [3, 8, 3, 1], IsKey key) ∧
      ∃ t t', ofKeys 4 (some 6) () [3, 8, 3, 1] =
          (.ok t : Except (Fault Unit) (ProbingTable Unit)) ∧
        ofKeys 3 none 0 [1, 3, 8] = (.ok t' : Except (Fault Unit) (ProbingTable Int)) ∧
        t.ranks = [2, 1, 0] ∧ t.ranks.Perm (List.range t.size) ∧ t.sortedKeys = [1, 3, 8] ∧
        t'.sortedKeys = [1, 3, 8] ∧ t.IsPlaced id [1, 3, 8] := by
  have hkeys : ∀ key ∈ [3, 8, 3, 1], IsKey key := by simp [IsKey, fits]
  have hkeys' : ∀ key ∈ [1, 3, 8], IsKey key := by simp [IsKey, fits]
  obtain ⟨t, ht⟩ : ∃ t, ofKeys 4 (some 6) () [3, 8, 3, 1] =
      (.ok t : Except (Fault Unit) (ProbingTable Unit)) :=
    exists_ofKeys_eq_ok hkeys (by decide) (by decide)
  obtain ⟨t', ht'⟩ : ∃ t', ofKeys 3 none 0 [1, 3, 8] =
      (.ok t' : Except (Fault Unit) (ProbingTable Int)) :=
    exists_ofKeys_eq_ok hkeys' (by decide) (by decide)
  obtain ⟨hranks, hascending, hmem, hsame, hplaced, -⟩ := ranked_contents hkeys ht
  -- ascending lists of the same keys are the same
  have hsorted : t.sortedKeys = [1, 3, 8] :=
    hascending.eq_of_mem_iff (by decide) fun key => (hmem key).trans (by simp; tauto)
  have hslots : (ofKeys 4 (some 6) () [3, 8, 3, 1] : Except (Fault Unit) _).map ranks =
      .ok [2, 1, 0] := rfl
  rw [ht] at hslots
  have hsorted' := hsame Int 3 none 0 [1, 3, 8] t' (by simp; tauto) ht'
  exact ⟨hkeys, t, t', ht, ht', Except.ok.inj hslots, hranks, hsorted, hsorted'.trans hsorted,
    hsorted ▸ hplaced⟩

end Registered

end ProbingTable

end Multigrid
