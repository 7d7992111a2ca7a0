import Multigrid.Proofs.Table.Search

/-!
# The contents of a table

The contents are listed by rank, where the rank of a key is the number of smaller keys.  On the keys
of a valid table the rank is strictly increasing, and it takes every value below the size of the
table.  The list is therefore the ascending list of the keys, whatever the capacity of the table
and the order in which the keys were registered.

Adding to values moves no key.

## Main definitions

* `ProbingTable.rank`: the number of smaller keys
* `ProbingTable.SameKeys`: two tables that differ in their values at most

## Main results

* `ProbingTable.IsValid.sortedKeys_eq_sort`: the ascending list of the keys
-/

namespace Multigrid

namespace ProbingTable

variable {V : Type} {t : ProbingTable V}

/-! ## Ranks -/

variable (t) in
/-- The number of stored keys that are smaller than a key. -/
def rank (key : Int) : Nat := (t.items.map Prod.snd).countP (· < key)

variable (t) in
/-- The entry of the contents at a position is the first slot in use whose key has that rank. -/
theorem ranked_eq :
    t.ranked = (List.range t.size).filterMap fun r => t.items.find? (t.rank ·.2 = r) := by
  have hzip : t.items.zip t.ranks = t.items.map fun item => (item, t.rank item.2) := by
    have hranks : t.ranks = t.items.map fun item => t.rank item.2 := List.map_map
    rw [hranks, List.map_prod_left_eq_zip]
  simp only [ranked, hzip, List.find?_map]
  apply List.filterMap_congr
  intro r _
  simp [Function.comp_def]

theorem items_map_snd : t.items.map Prod.snd = (List.finRange t.capacity).filterMap t.keys.get := by
  simp only [items, List.map_filterMap, Option.map_map]
  apply List.filterMap_congr
  intro slot _
  cases t.keys.get slot <;> rfl

theorem mem_items_snd {key : Int} : key ∈ t.items.map Prod.snd ↔ key ∈ t.storedKeys :=
  List.mem_toFinset.symm

theorem rank_mono {k k' : Int} (h : k ≤ k') : t.rank k ≤ t.rank k' := by
  apply List.countP_mono_left
  intro key _ hlt
  simp only [decide_eq_true_eq] at hlt ⊢
  omega

/-- The contents list keys in ascending order. -/
theorem pairwise_sortedKeys : t.sortedKeys.Pairwise (· < ·) := by
  rw [sortedKeys, List.pairwise_map, ranked_eq, List.pairwise_filterMap]
  refine List.pairwise_lt_range.imp ?_
  intro r r' hlt item hitem item' hitem'
  have hrank : t.rank item.2 = r := by simpa using List.find?_some hitem
  have hrank' : t.rank item'.2 = r' := by simpa using List.find?_some hitem'
  by_contra hle
  have hmono := rank_mono (t := t) (Int.not_lt.mp hle)
  omega

namespace IsValid

variable (ht : t.IsValid)

include ht

theorem nodup_items_snd : (t.items.map Prod.snd).Nodup := by
  rw [items_map_snd]
  exact (List.nodup_finRange t.capacity).filterMap fun s s' key hs hs' =>
    ht.distinct (Option.mem_def.mp hs) (Option.mem_def.mp hs')

theorem rank_eq_card (key : Int) : t.rank key = (t.storedKeys.filter (· < key)).card := by
  rw [rank, List.countP_eq_length_filter,
    ← List.toFinset_card_of_nodup (ht.nodup_items_snd.filter _), List.toFinset_filter]
  simp [storedKeys]

theorem rank_lt_rank {k k' : Int} (hk : k ∈ t.storedKeys) (h : k < k') : t.rank k < t.rank k' := by
  rw [ht.rank_eq_card, ht.rank_eq_card]
  -- the smaller key itself counts for the larger one
  refine Finset.card_lt_card (Finset.ssubset_iff_of_subset ?_ |>.mpr ⟨k, ?_, ?_⟩)
  · exact Finset.monotone_filter_right _ fun key _ hlt => hlt.trans h
  · exact Finset.mem_filter.mpr ⟨hk, h⟩
  · simp

theorem rank_lt_size {key : Int} (hkey : key ∈ t.storedKeys) : t.rank key < t.size := by
  rw [ht.rank_eq_card, ht.size_eq]
  -- a key is not smaller than itself
  refine Finset.card_lt_card (Finset.ssubset_iff_of_subset ?_ |>.mpr ⟨key, hkey, ?_⟩)
  · exact Finset.filter_subset _ _
  · simp

theorem eq_of_rank_eq {k k' : Int} (hk : k ∈ t.storedKeys) (hk' : k' ∈ t.storedKeys)
    (h : t.rank k = t.rank k') : k = k' := by
  rcases Int.lt_trichotomy k k' with hlt | heq | hlt
  · exact absurd (ht.rank_lt_rank hk hlt) h.not_lt
  · exact heq
  · exact absurd (ht.rank_lt_rank hk' hlt) h.symm.not_lt

/-! ## The list of the keys -/

theorem mem_sortedKeys {key : Int} : key ∈ t.sortedKeys ↔ key ∈ t.storedKeys := by
  simp only [sortedKeys, ranked_eq, List.mem_map, List.mem_filterMap, List.mem_range]
  constructor
  · rintro ⟨item, ⟨r, -, hitem⟩, rfl⟩
    exact mem_items_snd.mp (List.mem_map_of_mem (List.mem_of_find?_eq_some hitem))
  · intro hkey
    obtain ⟨item, hitem, rfl⟩ := List.mem_map.mp (mem_items_snd.mpr hkey)
    -- the slot found for the rank of a key is the slot of that key
    have hsome : (t.items.find? (t.rank ·.2 = t.rank item.2)).isSome := by
      rw [List.find?_isSome]
      exact ⟨item, hitem, by simp⟩
    obtain ⟨found, hfound⟩ := Option.isSome_iff_exists.mp hsome
    refine ⟨found, ⟨t.rank item.2, ht.rank_lt_size hkey, hfound⟩, ?_⟩
    have hmem : found.2 ∈ t.storedKeys :=
      mem_items_snd.mp (List.mem_map_of_mem (List.mem_of_find?_eq_some hfound))
    exact ht.eq_of_rank_eq hmem hkey (by simpa using List.find?_some hfound)

/-- The contents of a valid table are the ascending list of its keys. -/
theorem sortedKeys_eq_sort : t.sortedKeys = t.storedKeys.sort :=
  pairwise_sortedKeys.eq_of_mem_iff (Finset.sortedLT_sort _).pairwise fun key => by
    rw [ht.mem_sortedKeys, Finset.mem_sort]

theorem length_sortedKeys : t.sortedKeys.length = t.size := by
  rw [ht.sortedKeys_eq_sort, Finset.length_sort, ht.size_eq]

end IsValid

theorem sortedEntries_map_fst : t.sortedEntries.map Prod.fst = t.sortedKeys := by
  simp [sortedEntries, sortedKeys]

/-! ## Adding to values -/

/-- The tables differ in their values at most. -/
def SameKeys (t t' : ProbingTable V) : Prop := ∃ values, t' = { t with values := values }

namespace SameKeys

variable {t' t'' : ProbingTable V}

theorem refl (t : ProbingTable V) : t.SameKeys t := ⟨t.values, rfl⟩

theorem trans (h : t.SameKeys t') (h' : t'.SameKeys t'') : t.SameKeys t'' := by
  obtain ⟨values, rfl⟩ := h
  obtain ⟨values', rfl⟩ := h'
  exact ⟨values', rfl⟩

/-- Steps that change values only, one after the other, change values only. -/
theorem foldl {β γ : Type} {table : β → ProbingTable V} {step : β → γ → β}
    (hstep : ∀ b c, (table b).SameKeys (table (step b c))) (cs : List γ) (b : β) :
    (table b).SameKeys (table (cs.foldl step b)) := by
  induction cs generalizing b with
  | nil => exact refl (table b)
  | cons c cs ih => exact (hstep b c).trans (ih (step b c))

theorem sortedKeys_eq (h : t.SameKeys t') : t'.sortedKeys = t.sortedKeys := by
  obtain ⟨values, rfl⟩ := h
  rfl

end SameKeys

theorem sameKeys_of_add? [Add V] {t' : ProbingTable V} {key : Int} {x : V}
    (h : t.add? key x = some t') : t.SameKeys t' := by
  unfold add? at h
  split at h
  · exact ⟨_, (Option.some.inj h).symm⟩
  · cases h

end ProbingTable

end Multigrid
