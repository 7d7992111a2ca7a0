import Multigrid.Proofs.Table.Contents

/-!
# The values of a table

Registering keys leaves every value as it was when the table was made.  Adding to the value of a
key that is stored changes the value of no other key, and adding to a key that is not stored is
refused.  The contents list every key with its value, so a table in use is no more than a function
on its keys.

## Main definitions

* `ProbingTable.IsBlank`: all values are the same
* `ProbingTable.valueOf`: the value of a key, zero if it is not stored

## Main results

* `ProbingTable.IsValid.of_insertAll`: the table after keys were registered
* `ProbingTable.IsValid.exists_add?`, `ProbingTable.IsValid.add?_eq_none`: adding to a value
* `ProbingTable.IsValid.sortedEntries_eq`: the contents
-/

namespace Multigrid

namespace ProbingTable

variable {V R : Type} {t t' : ProbingTable V} {key : Int}

/-! ## Registered keys -/

/-- All values are `blank`. -/
def IsBlank (t : ProbingTable V) (blank : V) : Prop := ∀ slot, t.values.get slot = blank

theorem isBlank_empty {capacity : Nat} {h : 0 < capacity} {owner : Option Int} {blank : V} :
    (empty capacity h owner blank).IsBlank blank :=
  fun slot => Vector.getElem_replicate slot.isLt

theorem IsBlank.put {blank : V} (h : t.IsBlank blank) (slot : Fin t.capacity) :
    (t.put slot key).IsBlank blank := h

theorem exists_of_create_eq_ok {capacity : Int} {owner : Option Int} {blank : V}
    (h : create capacity owner blank = (.ok t : Except (Fault R) (ProbingTable V))) :
    ∃ (count : Nat) (hpos : 0 < count), t = empty count hpos owner blank := by
  unfold create at h
  split_ifs at h with hsize
  cases h
  exact ⟨capacity.toNat, by omega, rfl⟩

namespace IsValid

variable (ht : t.IsValid)

include ht

/-- A key that is registered was stored before, or is stored in a free slot. -/
theorem of_insert (hkey : key ≠ reservedKey) {isNew : Bool}
    (h : t.insert key = (.ok (isNew, t') : Except (Fault R) (Bool × ProbingTable V))) :
    t' = t ∧ key ∈ t.storedKeys ∨
      ∃ slot, t' = t.put slot key ∧ (t.put slot key).IsValid ∧
        (t.put slot key).storedKeys = Insert.insert key t.storedKeys := by
  by_cases hmem : key ∈ t.storedKeys
  · rw [insert_of_mem ht hkey hmem] at h
    cases h
    exact .inl ⟨rfl, hmem⟩
  · right
    have hloc := located_locate hkey (t := t)
    rw [ProbingTable.insert] at h
    generalize t.locate key = probe at hloc h
    cases hloc with
    | taken holds => exact absurd (mem_storedKeys.mpr ⟨_, holds⟩) hmem
    | @free d isFree passed =>
      simp only at h
      split_ifs at h
      cases h
      exact ⟨t.tried key d, rfl, ht.put isFree passed hmem, storedKeys_put isFree⟩
    | exhausted passed => cases h

/-- Keys that were registered are stored, and no value has changed. -/
theorem of_insertAll {keys : List Int} (hkeys : ∀ key ∈ keys, key ≠ reservedKey) {blank : V}
    (hblank : t.IsBlank blank)
    (h : t.insertAll keys = (.ok t' : Except (Fault R) (ProbingTable V))) :
    t'.IsValid ∧ t'.storedKeys = t.storedKeys ∪ keys.toFinset ∧ t'.IsBlank blank := by
  induction keys generalizing t with
  | nil =>
    cases h
    exact ⟨ht, by simp, hblank⟩
  | cons key keys ih =>
    rw [insertAll, List.foldlM_cons] at h
    cases hfirst : (t.insert key : Except (Fault R) (Bool × ProbingTable V)) with
    | error fault =>
      rw [hfirst] at h
      cases h
    | ok result =>
      rw [hfirst] at h
      have hrest := fun k hk => hkeys k (List.mem_cons_of_mem key hk)
      obtain ⟨isNew, next⟩ := result
      rw [List.toFinset_cons, Finset.union_insert]
      rcases ht.of_insert (hkeys key (by simp)) hfirst with ⟨rfl, hmem⟩ | ⟨slot, rfl, hput, hstored⟩
      · rw [Finset.insert_eq_of_mem (Finset.mem_union_left _ hmem)]
        exact ih ht hrest hblank h
      · rw [← Finset.insert_union, ← hstored]
        exact ih hput hrest (hblank.put slot) h

/-! ## Reading and adding -/

theorem locate_eq_taken (hkey : key ≠ reservedKey) {slot : Fin t.capacity}
    (h : t.keys.get slot = some key) : t.locate key = .taken slot := by
  obtain ⟨slot', hlocate, hholds⟩ := ht.exists_locate_eq_taken hkey (mem_storedKeys.mpr ⟨slot, h⟩)
  rw [hlocate, ht.distinct hholds h]

theorem find?_of_get (hkey : key ≠ reservedKey) {slot : Fin t.capacity}
    (h : t.keys.get slot = some key) : t.find? key = some (t.values.get slot) := by
  rw [find?, ht.locate_eq_taken hkey h]

end IsValid

theorem locate_ne_taken (hkey : key ≠ reservedKey) (h : key ∉ t.storedKeys)
    (slot : Fin t.capacity) : t.locate key ≠ .taken slot := by
  intro hlocate
  have hloc := located_locate hkey (t := t)
  rw [hlocate] at hloc
  cases hloc with
  | taken holds => exact h (mem_storedKeys.mpr ⟨slot, holds⟩)

theorem add?_eq_none [Add V] (hkey : key ≠ reservedKey) (h : key ∉ t.storedKeys) (x : V) :
    t.add? key x = none := by
  unfold add?
  split
  next slot hlocate => exact absurd hlocate (locate_ne_taken hkey h slot)
  next => rfl

section Values

variable [Zero V]

variable (t) in
/-- The value of a key, zero for a key that is not stored. -/
def valueOf (key : Int) : V := (t.find? key).getD 0

theorem IsBlank.valueOf_eq_zero (h : t.IsBlank 0) (key : Int) : t.valueOf key = 0 := by
  unfold valueOf find?
  split
  next slot _ => exact h slot
  next => rfl

namespace IsValid

variable (ht : t.IsValid)

include ht

theorem valueOf_of_get (hkey : key ≠ reservedKey) {slot : Fin t.capacity}
    (h : t.keys.get slot = some key) : t.valueOf key = t.values.get slot := by
  rw [valueOf, ht.find?_of_get hkey h, Option.getD_some]

/-- The contents are the keys in ascending order, each with its value. -/
theorem sortedEntries_eq (hkeys : ∀ key ∈ t.storedKeys, key ≠ reservedKey) :
    t.sortedEntries = t.sortedKeys.map fun key => (key, t.valueOf key) := by
  rw [sortedEntries, sortedKeys, List.map_map]
  apply List.map_congr_left
  rintro ⟨slot, key⟩ hmem
  -- what is listed was found among the slots in use
  have hitem : (slot, key) ∈ t.items := by
    rw [ranked_eq] at hmem
    obtain ⟨rank, -, hfind⟩ := List.mem_filterMap.mp hmem
    exact List.mem_of_find?_eq_some hfind
  have hslot : t.keys.get slot = some key := by
    obtain ⟨slot', -, h⟩ := List.mem_filterMap.mp hitem
    obtain ⟨key', hkey', h⟩ := Option.map_eq_some_iff.mp h
    cases h
    exact hkey'
  have hkey := hkeys key (mem_storedKeys.mpr ⟨slot, hslot⟩)
  rw [Function.comp_apply, ht.valueOf_of_get hkey hslot]

end IsValid

end Values

namespace SameKeys

theorem storedKeys_eq (h : t.SameKeys t') : t'.storedKeys = t.storedKeys := by
  obtain ⟨values, rfl⟩ := h
  rfl

theorem isValid (h : t.SameKeys t') (ht : t.IsValid) : t'.IsValid := by
  obtain ⟨values, rfl⟩ := h
  exact ⟨ht.distinct, ht.reachable, ht.size_eq⟩

end SameKeys

/-- Adding to the value of a stored key changes that value only. -/
theorem IsValid.exists_add? [Zero V] [Add V] (ht : t.IsValid) (hkey : key ≠ reservedKey)
    (h : key ∈ t.storedKeys) (x : V) :
    ∃ t', t.add? key x = some t' ∧ t.SameKeys t' ∧ ∀ k ∈ t.storedKeys, k ≠ reservedKey →
      t'.valueOf k = if k = key then t.valueOf k + x else t.valueOf k := by
  obtain ⟨slot, hslot⟩ := mem_storedKeys.mp h
  have hsame : t.SameKeys { t with values := t.values.set slot (t.values.get slot + x) } :=
    ⟨_, rfl⟩
  refine ⟨_, by rw [add?, ht.locate_eq_taken hkey hslot], hsame, ?_⟩
  intro k hk hkres
  obtain ⟨s, hs⟩ := mem_storedKeys.mp hk
  have hget : (t.values.set slot (t.values.get slot + x)).get s =
      if slot.val = s.val then t.values.get slot + x else t.values.get s :=
    Vector.getElem_set slot.isLt s.isLt
  have hnew := (hsame.isValid ht).valueOf_of_get hkres hs
  rw [hnew, ht.valueOf_of_get hkres hs]
  show (t.values.set slot (t.values.get slot + x)).get s = _
  rw [hget]
  -- two keys are the same if and only if their slots are
  by_cases hkk : k = key
  · obtain rfl := hkk
    obtain rfl := ht.distinct hslot hs
    rw [if_pos rfl, if_pos rfl]
  · have hne : slot.val ≠ s.val := by
      intro heq
      obtain rfl := Fin.ext heq
      exact hkk (Option.some.inj (hs.symm.trans hslot))
    rw [if_neg hkk, if_neg hne]

end ProbingTable

end Multigrid
