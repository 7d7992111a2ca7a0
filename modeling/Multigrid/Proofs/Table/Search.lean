import Multigrid.Table.Probing
import Mathlib

/-!
# Searching a table

A search tries the slots from the home of a key on, and every slot within as many steps as there
are slots.  It finds a key that is stored because no slot between the home of the key and its own
is free: the insertion that stored it has passed those slots, and a key is never removed.  This,
together with the fact that no key is stored twice, is what an insertion has to preserve.

## Main definitions

* `ProbingTable.storedKeys`: the keys of a table
* `ProbingTable.Located`: what the end of a search says
* `ProbingTable.IsValid`: no key is stored twice, and each is found from its home
* `ProbingTable.empty`, `ProbingTable.put`: a table without keys, and storing a key in a slot

## Main results

* `ProbingTable.located_locate`: a search says the truth
* `ProbingTable.contains_iff`: a key is present if and only if it is stored
* `ProbingTable.IsValid.insert_cases`: all that an insertion can do
* `ProbingTable.exists_insertAll`: registering keys one after the other
-/

namespace Multigrid

namespace ProbingTable

variable {V R : Type} (t : ProbingTable V)

/-- A key that a table can store: it is not negative and fits into a slot. -/
def IsKey (key : Int) : Prop := 0 ≤ key ∧ fits key = true

theorem IsKey.ne_reservedKey {key : Int} (h : IsKey key) : key ≠ reservedKey := by
  rintro rfl
  exact absurd h.1 (by decide)

/-- The keys that are stored. -/
def storedKeys : Finset Int := (t.items.map Prod.snd).toFinset

variable {t} in
theorem mem_storedKeys {key : Int} : key ∈ t.storedKeys ↔ ∃ slot, t.keys.get slot = some key := by
  simp [storedKeys, items]

/-! ## Slots on the way from a home -/

/-- The slot that a search for a key tries after `d` others. -/
def tried (key : Int) (d : Nat) : Fin t.capacity :=
  ⟨(t.home key + d) % t.capacity, Nat.mod_lt _ t.capacity_pos⟩

theorem tried_zero (key : Int) : t.tried key 0 = t.home key :=
  Fin.ext (Nat.mod_eq_of_lt (t.home key).isLt)

theorem following_tried (key : Int) (d : Nat) :
    t.following (t.tried key d) = t.tried key (d + 1) := by
  apply Fin.ext
  simp only [following, tried]
  rw [Nat.mod_add_mod, Nat.add_assoc]

/-- A search that does not stop tries every slot. -/
theorem exists_tried_eq (key : Int) (slot : Fin t.capacity) :
    ∃ d < t.capacity, t.tried key d = slot := by
  have hslot := slot.isLt
  have hhome := (t.home key).isLt
  -- the slot is as far from the home as both are apart, once around the end
  refine ⟨(slot + (t.capacity - t.home key)) % t.capacity, Nat.mod_lt _ t.capacity_pos, ?_⟩
  apply Fin.ext
  simp only [tried, Nat.add_mod_mod]
  rw [show (t.home key : Nat) + (slot + (t.capacity - t.home key)) = slot + t.capacity by omega,
    Nat.add_mod_right, Nat.mod_eq_of_lt hslot]

/-- The slot tried after `d` others is passed by: it holds another key. -/
def IsPassed (key : Int) (d : Nat) : Prop :=
  ∃ other, t.keys.get (t.tried key d) = some other ∧ other ≠ key

/-- What the end of a search says: where the key is, or that it is missing. -/
inductive Located (key : Int) : Probe t.capacity → Prop where
  /-- The slot holds the key. -/
  | taken {slot : Fin t.capacity} (holds : t.keys.get slot = some key) : Located key (.taken slot)
  /-- The slot is free, and the slots tried before are passed by. -/
  | free {d : Nat} (isFree : t.keys.get (t.tried key d) = none)
      (passed : ∀ e < d, t.IsPassed key e) : Located key (.free (t.tried key d))
  /-- All slots are passed by. -/
  | exhausted (passed : ∀ d < t.capacity, t.IsPassed key d) : Located key .exhausted

variable {t} {key : Int}

theorem located_search (hkey : key ≠ reservedKey) (count d : Nat) (hcount : d + count = t.capacity)
    (hpassed : ∀ e < d, t.IsPassed key e) :
    t.Located key (t.search key (t.tried key d) count) := by
  induction count generalizing d with
  | zero =>
    rw [search]
    exact .exhausted fun e he => hpassed e (by omega)
  | succ count ih =>
    rw [search]
    cases hslot : t.keys.get (t.tried key d) with
    | none =>
      simp only [if_neg hkey]
      exact .free hslot hpassed
    | some other =>
      by_cases hother : other = key
      · simp only [if_pos hother]
        exact .taken (hother ▸ hslot)
      · -- another key is there, and the search goes on behind it
        simp only [if_neg hother, following_tried]
        apply ih (d + 1) (by omega)
        intro e he
        rcases Nat.lt_succ_iff_lt_or_eq.mp he with hlt | rfl
        · exact hpassed e hlt
        · exact ⟨other, hslot, hother⟩

/-- A search says the truth. -/
theorem located_locate (hkey : key ≠ reservedKey) : t.Located key (t.locate key) := by
  rw [locate, ← tried_zero]
  exact located_search hkey t.capacity 0 (Nat.zero_add _) fun e he => absurd he (Nat.not_lt_zero e)

/-! ## Valid tables -/

variable (t) in
/-- No key is stored twice, and no slot between the home of a key and its own is free. -/
structure IsValid : Prop where
  /-- A key is stored in one slot only. -/
  distinct {s s' : Fin t.capacity} {key : Int} :
    t.keys.get s = some key → t.keys.get s' = some key → s = s'
  /-- From the home of a key, the slots up to its own are in use. -/
  reachable {s : Fin t.capacity} {key : Int} : t.keys.get s = some key →
    ∃ d, t.tried key d = s ∧ ∀ e < d, t.keys.get (t.tried key e) ≠ none
  /-- The size is the number of keys. -/
  size_eq : t.size = t.storedKeys.card

namespace IsValid

variable (ht : t.IsValid)

include ht

/-- The search for a stored key ends at its slot. -/
theorem exists_locate_eq_taken (hkey : key ≠ reservedKey) (h : key ∈ t.storedKeys) :
    ∃ slot, t.locate key = .taken slot ∧ t.keys.get slot = some key := by
  obtain ⟨slot, hslot⟩ := mem_storedKeys.mp h
  obtain ⟨d, rfl, hused⟩ := ht.reachable hslot
  -- the slot of the key lies on the way, so a search that missed it would have stopped before
  have hnot : ¬ t.IsPassed key d := by
    rintro ⟨other, hother, hne⟩
    exact hne (Option.some.inj (hother.symm.trans hslot))
  have hloc := located_locate hkey (t := t)
  generalize t.locate key = probe at hloc
  cases hloc with
  | taken holds => exact ⟨_, rfl, holds⟩
  | @free e isFree passed =>
    -- a free slot lies neither before the key, nor in its place, nor behind it
    rcases Nat.lt_trichotomy e d with hlt | rfl | hlt
    · exact absurd isFree (hused e hlt)
    · rw [hslot] at isFree
      cases isFree
    · exact absurd (passed d hlt) hnot
  | exhausted passed =>
    obtain ⟨e, he, heq⟩ := t.exists_tried_eq key (t.tried key d)
    obtain ⟨other, hother, hne⟩ := passed e he
    rw [heq, hslot] at hother
    exact absurd (Option.some.inj hother).symm hne

theorem contains_iff (hkey : key ≠ reservedKey) : t.contains key = true ↔ key ∈ t.storedKeys := by
  constructor
  · intro h
    have hloc := located_locate hkey (t := t)
    rw [contains] at h
    generalize t.locate key = probe at hloc h
    cases hloc with
    | taken holds => exact mem_storedKeys.mpr ⟨_, holds⟩
    | free => cases h
    | exhausted => cases h
  · intro h
    obtain ⟨slot, hslot, -⟩ := ht.exists_locate_eq_taken hkey h
    rw [contains, hslot]

/-- A search that passes all slots has met as many keys as there are slots. -/
theorem capacity_le_card (h : ∀ d < t.capacity, t.IsPassed key d) :
    t.capacity ≤ t.storedKeys.card := by
  have hused (slot : Fin t.capacity) : ∃ k, t.keys.get slot = some k := by
    obtain ⟨d, hd, rfl⟩ := t.exists_tried_eq key slot
    obtain ⟨other, hother, -⟩ := h d hd
    exact ⟨other, hother⟩
  choose held hheld using hused
  -- different slots hold different keys
  have hcard := Finset.card_le_card_of_injOn (s := Finset.univ) held
    (fun slot _ => mem_storedKeys.mpr ⟨slot, hheld slot⟩)
    (fun s _ s' _ heq => ht.distinct (hheld s) (heq ▸ hheld s'))
  simpa using hcard

end IsValid

/-! ## Registering keys -/

/-- A table without keys. -/
def empty (capacity : Nat) (h : 0 < capacity) (owner : Option Int) (blank : V) : ProbingTable V :=
  ⟨capacity, .replicate _ none, .replicate _ blank, 0, owner, h⟩

section Empty

variable {capacity : Nat} {h : 0 < capacity} {owner : Option Int} {blank : V}

theorem create_eq_ok : create capacity owner blank = (.ok (empty capacity h owner blank) :
    Except (Fault R) (ProbingTable V)) := by
  rw [create, dif_neg (by omega)]
  rfl

theorem get_keys_empty (slot : Fin capacity) :
    (empty capacity h owner blank).keys.get slot = none :=
  Vector.getElem_replicate slot.isLt

@[simp] theorem storedKeys_empty : (empty capacity h owner blank).storedKeys = ∅ := by
  ext key
  simp only [mem_storedKeys, Finset.notMem_empty, iff_false, not_exists]
  intro slot hslot
  cases (get_keys_empty slot).symm.trans hslot

theorem isValid_empty : (empty capacity h owner blank).IsValid where
  distinct {s _ _} hs := by cases (get_keys_empty s).symm.trans hs
  reachable {s _} hs := by cases (get_keys_empty s).symm.trans hs
  size_eq := by rw [storedKeys_empty, Finset.card_empty]; rfl

end Empty

variable (t) in
/-- Stores a key in a slot. -/
def put : (slot : Fin t.capacity) → (key : Int) → ProbingTable V
  | ⟨slot, h⟩, key => { t with keys := t.keys.set slot (some key) h, size := t.size + 1 }

theorem get_keys_put (slot s : Fin t.capacity) :
    (t.put slot key).keys.get s = if s = slot then some key else t.keys.get s := by
  have h : (t.put slot key).keys.get s =
      if slot.val = s.val then some key else t.keys.get s :=
    Vector.getElem_set slot.isLt s.isLt
  simp only [h, Fin.ext_iff, eq_comm]

theorem get_keys_put_eq_some {slot s : Fin t.capacity} {k : Int}
    (h : (t.put slot key).keys.get s = some k) :
    s = slot ∧ k = key ∨ t.keys.get s = some k := by
  rw [get_keys_put] at h
  split_ifs at h with hslot
  · exact .inl ⟨hslot, (Option.some.inj h).symm⟩
  · exact .inr h

/-- A slot in use keeps its key when another key is stored in a free slot. -/
theorem get_keys_put_of_some {slot s : Fin t.capacity} {k : Int} (hfree : t.keys.get slot = none)
    (h : t.keys.get s = some k) : (t.put slot key).keys.get s = some k := by
  have hne : s ≠ slot := by
    rintro rfl
    cases hfree.symm.trans h
  rw [get_keys_put, if_neg hne, h]

theorem storedKeys_put {slot : Fin t.capacity} (hfree : t.keys.get slot = none) :
    (t.put slot key).storedKeys = Insert.insert key t.storedKeys := by
  ext k
  rw [Finset.mem_insert, mem_storedKeys, mem_storedKeys]
  constructor
  · rintro ⟨s, hs⟩
    rcases get_keys_put_eq_some hs with ⟨-, rfl⟩ | hs
    · exact .inl rfl
    · exact .inr ⟨s, hs⟩
  · rintro (rfl | ⟨s, hs⟩)
    · exact ⟨slot, by rw [get_keys_put, if_pos rfl]⟩
    · exact ⟨s, get_keys_put_of_some hfree hs⟩

/-- Storing a new key at the free slot where its search ended keeps a table valid. -/
theorem IsValid.put (ht : t.IsValid) {d : Nat} (hfree : t.keys.get (t.tried key d) = none)
    (hpassed : ∀ e < d, t.IsPassed key e) (hnew : key ∉ t.storedKeys) :
    (t.put (t.tried key d) key).IsValid where
  distinct {s s' k} hs hs' := by
    -- the new key was in no slot before
    rcases get_keys_put_eq_some hs with ⟨h, rfl⟩ | hs
    · rcases get_keys_put_eq_some hs' with ⟨h', -⟩ | hs'
      · exact h.trans h'.symm
      · exact absurd ((mem_storedKeys (t := t)).mpr ⟨s', hs'⟩) hnew
    · rcases get_keys_put_eq_some hs' with ⟨-, rfl⟩ | hs'
      · exact absurd ((mem_storedKeys (t := t)).mpr ⟨s, hs⟩) hnew
      · exact ht.distinct hs hs'
  reachable {s k} hs := by
    -- slots in use stay in use, and those before the new key are passed by
    have hused (s : Fin t.capacity) (h : t.keys.get s ≠ none) :
        (t.put (t.tried key d) key).keys.get s ≠ none := by
      obtain ⟨other, hother⟩ := Option.ne_none_iff_exists'.mp h
      rw [get_keys_put_of_some hfree hother]
      exact Option.some_ne_none other
    rcases get_keys_put_eq_some hs with ⟨rfl, rfl⟩ | hs
    · refine ⟨d, rfl, fun e he => hused _ ?_⟩
      obtain ⟨other, hother, -⟩ := hpassed e he
      exact fun hnone => Option.some_ne_none other (hother.symm.trans hnone)
    · obtain ⟨e, he, hbefore⟩ := ht.reachable hs
      exact ⟨e, he, fun e' he' => hused _ (hbefore e' he')⟩
  size_eq := by
    rw [storedKeys_put hfree, Finset.card_insert_of_notMem hnew, ← ht.size_eq]
    rfl

theorem insert_of_mem (ht : t.IsValid) (hkey : key ≠ reservedKey) (h : key ∈ t.storedKeys) :
    t.insert key = (.ok (false, t) : Except (Fault R) (Bool × ProbingTable V)) := by
  obtain ⟨slot, hslot, -⟩ := ht.exists_locate_eq_taken hkey h
  rw [insert, hslot]

/-- A key that is present is left alone, a new one is stored in a free slot, and a new one for which
there is no slot is refused. -/
theorem IsValid.insert_cases (ht : t.IsValid) (hkey : IsKey key) :
    (key ∈ t.storedKeys ∧
        t.insert key = (.ok (false, t) : Except (Fault R) (Bool × ProbingTable V))) ∨
      (key ∉ t.storedKeys ∧ ∃ slot, t.keys.get slot = none ∧
        t.insert key = (.ok (true, t.put slot key) : Except (Fault R) (Bool × ProbingTable V)) ∧
        (t.put slot key).IsValid) ∨
      (key ∉ t.storedKeys ∧ t.capacity ≤ t.storedKeys.card ∧
        t.insert key = (.error (.tableFull t.capacity t.owner) :
          Except (Fault R) (Bool × ProbingTable V))) := by
  by_cases hmem : key ∈ t.storedKeys
  · exact .inl ⟨hmem, insert_of_mem ht hkey.ne_reservedKey hmem⟩
  · right
    have hloc := located_locate hkey.ne_reservedKey (t := t)
    rw [ProbingTable.insert]
    generalize t.locate key = probe at hloc
    cases hloc with
    | taken holds => exact absurd (mem_storedKeys.mpr ⟨_, holds⟩) hmem
    | @free d isFree passed =>
      refine .inl ⟨hmem, t.tried key d, isFree, ?_, ht.put isFree passed hmem⟩
      simp only [if_pos hkey.2]
      rfl
    | exhausted passed => exact .inr ⟨hmem, ht.capacity_le_card passed, rfl⟩

/-- A new key is stored, if there is room for one more. -/
theorem exists_insert_of_notMem (ht : t.IsValid) (hkey : IsKey key) (h : key ∉ t.storedKeys)
    (hroom : t.storedKeys.card < t.capacity) :
    ∃ slot, t.insert key = (.ok (true, t.put slot key) :
        Except (Fault R) (Bool × ProbingTable V)) ∧
      (t.put slot key).IsValid ∧ (t.put slot key).storedKeys = Insert.insert key t.storedKeys := by
  rcases ht.insert_cases (R := R) hkey with ⟨hmem, -⟩ | ⟨-, slot, hfree, hins, hput⟩ | ⟨-, hfull, -⟩
  · exact absurd hmem h
  · exact ⟨slot, hins, hput, storedKeys_put hfree⟩
  · omega

/-- Registering keys one after the other succeeds if there is room for all that are new. -/
theorem exists_insertAll (keys : List Int) (t : ProbingTable V) (ht : t.IsValid)
    (hkeys : ∀ key ∈ keys, IsKey key)
    (hroom : (t.storedKeys ∪ keys.toFinset).card ≤ t.capacity) :
    ∃ t' : ProbingTable V, t.insertAll keys = (.ok t' : Except (Fault R) (ProbingTable V)) ∧
      t'.IsValid ∧ t'.capacity = t.capacity ∧ t'.storedKeys = t.storedKeys ∪ keys.toFinset := by
  induction keys generalizing t with
  | nil => exact ⟨t, rfl, ht, rfl, by simp⟩
  | cons key keys ih =>
    have hkey := hkeys key (by simp)
    have hrest := fun k hk => hkeys k (List.mem_cons_of_mem key hk)
    rw [List.toFinset_cons, Finset.union_insert] at hroom ⊢
    by_cases h : key ∈ t.storedKeys
    · -- a key that is stored already takes no room
      rw [Finset.insert_eq_of_mem (Finset.mem_union_left _ h)] at hroom ⊢
      obtain ⟨t', ht', hvalid, hcap, hstored⟩ := ih t ht hrest hroom
      refine ⟨t', ?_, hvalid, hcap, hstored⟩
      rw [insertAll, List.foldlM_cons, insert_of_mem ht hkey.ne_reservedKey h]
      exact ht'
    · have hlt : t.storedKeys.card < t.capacity := by
        have hsub : Insert.insert key t.storedKeys ⊆
            Insert.insert key (t.storedKeys ∪ keys.toFinset) :=
          Finset.insert_subset_insert key Finset.subset_union_left
        have hle := Finset.card_le_card hsub
        rw [Finset.card_insert_of_notMem h] at hle
        omega
      obtain ⟨slot, hins, hput, hputs⟩ := exists_insert_of_notMem (R := R) ht hkey h hlt
      obtain ⟨t', ht', hvalid, hcap, hstored⟩ := ih (t.put slot key) hput hrest
        (by rwa [hputs, Finset.insert_union])
      refine ⟨t', ?_, hvalid, hcap, by rw [hstored, hputs, Finset.insert_union]⟩
      rw [insertAll, List.foldlM_cons, hins]
      exact ht'

end ProbingTable

end Multigrid
