import Multigrid.Proofs.Table.Values

/-!
# Tables of different sizes

The number of slots decides where a key is stored and which keys a search passes on its way.  None
of that shows from outside, as long as there is room: two tables with the same keys and the same
values under them answer alike, and stay alike when the same is added to both.  What shows is a
missing slot, and it depends only on how many different keys there are.

## Main definitions

* `ProbingTable.SameContents`: two tables with the same keys and the same values under them

## Main results

* `ProbingTable.SameContents.contains_eq`, `ProbingTable.SameContents.add?_cases`,
  `ProbingTable.SameContents.sortedEntries_eq`: tables that answer alike
* `ProbingTable.insertAll_eq_tableFull`: more keys than slots
-/

namespace Multigrid

namespace ProbingTable

variable {V R : Type} {t t' : ProbingTable V} {key : Int}

/-! ## Answers -/

/-- Both tables are valid and have the same keys and the same values under them.  They may have
different numbers of slots, and hold a key in different ones. -/
structure SameContents [Zero V] (t t' : ProbingTable V) : Prop where
  /-- The first table is valid. -/
  isValid : t.IsValid
  /-- The second table is valid. -/
  isValid_right : t'.IsValid
  /-- No key is reserved. -/
  ne_reservedKey : ∀ key ∈ t.storedKeys, key ≠ reservedKey
  /-- The keys. -/
  storedKeys_eq : t'.storedKeys = t.storedKeys
  /-- The values. -/
  valueOf_eq : ∀ key ∈ t.storedKeys, t'.valueOf key = t.valueOf key

/-- Tables without values added to them. -/
theorem SameContents.of_isBlank [Zero V] (ht : t.IsValid) (ht' : t'.IsValid)
    (hkeys : ∀ key ∈ t.storedKeys, key ≠ reservedKey) (h : t'.storedKeys = t.storedKeys)
    (hblank : t.IsBlank 0) (hblank' : t'.IsBlank 0) : t.SameContents t' :=
  ⟨ht, ht', hkeys, h, fun key _ => by
    rw [hblank.valueOf_eq_zero, hblank'.valueOf_eq_zero]⟩

namespace SameContents

variable [Zero V] (h : t.SameContents t')

include h

theorem contains_eq (hkey : key ≠ reservedKey) : t'.contains key = t.contains key := by
  rw [Bool.eq_iff_iff, h.isValid_right.contains_iff hkey, h.isValid.contains_iff hkey,
    h.storedKeys_eq]

/-- The tables are asked to add the same to one key: both refuse, or both stay alike. -/
theorem add?_cases [Add V] (hkey : key ≠ reservedKey) (x : V) :
    (t.add? key x = none ∧ t'.add? key x = none) ∨
      ∃ s s', t.add? key x = some s ∧ t'.add? key x = some s' ∧ s.SameContents s' := by
  by_cases hmem : key ∈ t.storedKeys
  · have hmem' : key ∈ t'.storedKeys := h.storedKeys_eq ▸ hmem
    obtain ⟨s, hs, hsame, hvalue⟩ := h.isValid.exists_add? hkey hmem x
    obtain ⟨s', hs', hsame', hvalue'⟩ := h.isValid_right.exists_add? hkey hmem' x
    refine .inr ⟨s, s', hs, hs', hsame.isValid h.isValid, hsame'.isValid h.isValid_right,
      ?_, ?_, ?_⟩
    · rw [hsame.storedKeys_eq]
      exact h.ne_reservedKey
    · rw [hsame.storedKeys_eq, hsame'.storedKeys_eq, h.storedKeys_eq]
    · intro k hk
      rw [hsame.storedKeys_eq] at hk
      have hk' : k ∈ t'.storedKeys := h.storedKeys_eq ▸ hk
      rw [hvalue k hk (h.ne_reservedKey k hk), hvalue' k hk' (h.ne_reservedKey k hk),
        h.valueOf_eq k hk]
  · have hmem' : key ∉ t'.storedKeys := h.storedKeys_eq ▸ hmem
    exact .inl ⟨add?_eq_none hkey hmem x, add?_eq_none hkey hmem' x⟩

/-- The contents are listed alike, in the order of the keys and not in that of the slots. -/
theorem sortedEntries_eq : t'.sortedEntries = t.sortedEntries := by
  have hne' : ∀ key ∈ t'.storedKeys, key ≠ reservedKey := h.storedKeys_eq ▸ h.ne_reservedKey
  rw [h.isValid_right.sortedEntries_eq hne', h.isValid.sortedEntries_eq h.ne_reservedKey,
    h.isValid_right.sortedKeys_eq_sort, h.isValid.sortedKeys_eq_sort, h.storedKeys_eq]
  apply List.map_congr_left
  intro key hkey
  rw [h.valueOf_eq key ((Finset.mem_sort _).mp hkey)]

end SameContents

/-! ## Missing slots -/

theorem card_storedKeys_le : t.storedKeys.card ≤ t.capacity := by
  refine (List.toFinset_card_le _).trans ?_
  rw [items_map_snd]
  exact (List.length_filterMap_le _ _).trans_eq List.length_finRange

/-- Registering more different keys than there are slots fails, whatever their order and their home
slots are. -/
theorem insertAll_eq_tableFull (keys : List Int) (t : ProbingTable V) (ht : t.IsValid)
    (hkeys : ∀ key ∈ keys, IsKey key)
    (hroom : t.capacity < (t.storedKeys ∪ keys.toFinset).card) :
    t.insertAll keys =
      (.error (.tableFull t.capacity t.owner) : Except (Fault R) (ProbingTable V)) := by
  -- by induction on the keys: some new one finds no slot, and those before it are all stored
  induction keys generalizing t with
  | nil =>
    rw [List.toFinset_nil, Finset.union_empty] at hroom
    exact absurd card_storedKeys_le hroom.not_ge
  | cons key keys ih =>
    have hrest := fun k hk => hkeys k (List.mem_cons_of_mem key hk)
    rw [List.toFinset_cons, Finset.union_insert] at hroom
    rw [insertAll, List.foldlM_cons]
    rcases ht.insert_cases (R := R) (hkeys key (by simp)) with
      ⟨hmem, hins⟩ | ⟨-, slot, hfree, hins, hput⟩ | ⟨-, -, hins⟩
    · rw [Finset.insert_eq_of_mem (Finset.mem_union_left _ hmem)] at hroom
      rw [hins]
      exact ih t ht hrest hroom
    · rw [← Finset.insert_union, ← storedKeys_put hfree] at hroom
      rw [hins]
      exact ih (t.put slot key) hput hrest hroom
    · rw [hins]
      rfl

end ProbingTable

end Multigrid
