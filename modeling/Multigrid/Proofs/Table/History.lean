import Multigrid.Proofs.Table.Values

/-!
# Tables as bounded maps

Seen from outside, a table is a finite map that holds at most as many keys as it has slots.  Where a
key is stored, what it collided with, and how a search came to its end leave no trace in an answer.

The map of the specification has no slots.  It knows the keys that are present and for every one of
them the values that were added to it, in the order of the additions; the value of a key is their
sum from zero on, taken in that order.  No law of addition is assumed, so the statement covers
rounded sums as well as exact ones.

A table and a map are related if the table is valid, stores the keys of the map, and has the sum of
the additions in the slot of every key and zero in every free slot.  The last clause is there for
insertions: a key that is registered takes over the value of its slot.  Every call gives the same
answer on both sides and keeps them related, and a history follows by induction on its calls.

An insertion that is refused ends nothing: the table is as it was, and the history goes on with it.

## Main definitions

* `ProbingTable.Call`, `ProbingTable.Answer`: the calls on a table and their answers
* `ProbingTable.perform`, `ProbingTable.performAll`: a call on a table, and a history of calls
* `BoundedMap`, `BoundedMap.perform`, `BoundedMap.performAll`: the map of the specification
* `ProbingTable.Represents`: the table behaves as the map

## Main results

* `ProbingTable.Represents.perform`: a call on related sides
* `ProbingTable.create_refines_boundedMap`: a history on a new table
-/

namespace Multigrid

namespace ProbingTable

variable {V R : Type}

/-- A call on a table. -/
inductive Call (V : Type) where
  /-- Registers a key. -/
  | insert (key : Int)
  /-- Asks for a key. -/
  | contains (key : Int)
  /-- Adds to the value of a key. -/
  | add (key : Int) (x : V)
  /-- Reads the value of a key, with what to give if there is none. -/
  | get (key : Int) (absent : Option V)

instance IsKey.decidable (key : Int) : Decidable (IsKey key) :=
  inferInstanceAs (Decidable (0 ≤ key ∧ fits key = true))

/-- The key that a call is about. -/
def Call.key : Call V → Int
  | insert key | contains key | add key _ | get key _ => key

/-- The answer to a call. -/
inductive Answer (V R : Type) where
  /-- Whether a key was new, is present, or was added to. -/
  | flag (holds : Bool)
  /-- The value that was read. -/
  | value (found : Option V)
  /-- The call failed. -/
  | refused (fault : Fault R)

/-- Answers a call and gives the table after it. -/
def perform [Add V] (t : ProbingTable V) : Call V → Answer V R × ProbingTable V
  | .insert key =>
    match t.insert key with
    | .ok (isNew, next) => (.flag isNew, next)
    | .error fault => (.refused fault, t)
  | .contains key => (.flag (t.contains key), t)
  | .add key x =>
    match t.add? key x with
    | some next => (.flag true, next)
    | none => (.flag false, t)
  | .get key absent => (.value ((t.find? key).or absent), t)

/-- Answers calls one after the other. -/
def performAll [Add V] (t : ProbingTable V) : List (Call V) → List (Answer V R) × ProbingTable V
  | [] => ([], t)
  | call :: calls =>
    let (answer, next) := t.perform call
    let (answers, last) := next.performAll calls
    (answer :: answers, last)

end ProbingTable

/-! ## The map of the specification -/

/-- A finite map with at most `capacity` keys. -/
structure BoundedMap (V : Type) where
  /-- The number of keys that there is room for. -/
  capacity : Nat
  /-- The row that the map is used for. -/
  owner : Option Int
  /-- The keys that are present. -/
  keys : Finset Int
  /-- What was added to a key since it was registered, in the order of the additions. -/
  added : Int → List V

namespace BoundedMap

variable {V R : Type}

open ProbingTable (Call Answer)

/-- A map without keys. -/
def empty (capacity : Nat) (owner : Option Int) : BoundedMap V := ⟨capacity, owner, ∅, fun _ => []⟩

/-- The map after a key was registered. -/
def register (m : BoundedMap V) (key : Int) : BoundedMap V :=
  { m with keys := insert key m.keys, added := Function.update m.added key [] }

/-- The map after `x` was added to a key. -/
def addTo (m : BoundedMap V) (key : Int) (x : V) : BoundedMap V :=
  { m with added := Function.update m.added key (m.added key ++ [x]) }

/-- The sum of what was added to a key. -/
def total [Zero V] [Add V] (m : BoundedMap V) (key : Int) : V := (m.added key).foldl (· + ·) 0

/-- Answers a call and gives the map after it. -/
def perform [Zero V] [Add V] (m : BoundedMap V) : Call V → Answer V R × BoundedMap V
  | .insert key =>
    if key ∈ m.keys then
      (.flag false, m)
    else if m.keys.card < m.capacity then
      (.flag true, m.register key)
    else
      (.refused (.tableFull m.capacity m.owner), m)
  | .contains key => (.flag (decide (key ∈ m.keys)), m)
  | .add key x =>
    if key ∈ m.keys then (.flag true, m.addTo key x) else (.flag false, m)
  | .get key absent => (.value (if key ∈ m.keys then some (m.total key) else absent), m)

/-- Answers calls one after the other. -/
def performAll [Zero V] [Add V] (m : BoundedMap V) :
    List (Call V) → List (Answer V R) × BoundedMap V
  | [] => ([], m)
  | call :: calls =>
    let (answer, next) := m.perform call
    let (answers, last) := next.performAll calls
    (answer :: answers, last)

section Total

variable (m : BoundedMap V) {k key : Int}

@[simp] theorem keys_register : (m.register key).keys = insert key m.keys := rfl

@[simp] theorem keys_addTo (x : V) : (m.addTo key x).keys = m.keys := rfl

theorem added_register (k : Int) :
    (m.register key).added k = if k = key then [] else m.added k :=
  Function.update_apply m.added key [] k

theorem added_addTo (x : V) (k : Int) :
    (m.addTo key x).added k = if k = key then m.added key ++ [x] else m.added k :=
  Function.update_apply m.added key (m.added key ++ [x]) k

variable [Zero V] [Add V]

theorem total_register_self (key : Int) : (m.register key).total key = 0 := by
  rw [total, added_register, if_pos rfl, List.foldl_nil]

theorem total_register_of_ne (h : k ≠ key) : (m.register key).total k = m.total k := by
  rw [total, added_register, if_neg h, total]

theorem total_addTo_self (key : Int) (x : V) : (m.addTo key x).total key = m.total key + x := by
  rw [total, added_addTo, if_pos rfl, List.foldl_concat, total]

theorem total_addTo_of_ne (h : k ≠ key) (x : V) : (m.addTo key x).total k = m.total k := by
  rw [total, added_addTo, if_neg h, total]

end Total

/-- After a history the keys are those that were there before, and those for which an insertion was
not refused. -/
theorem mem_keys_performAll [Zero V] [Add V] (calls : List (Call V)) (m : BoundedMap V)
    (key : Int) :
    key ∈ (m.performAll (R := R) calls).2.keys ↔ key ∈ m.keys ∨
      ∃ isNew, (.insert key, .flag isNew) ∈ calls.zip (m.performAll (R := R) calls).1 := by
  induction calls generalizing m with
  | nil => simp [performAll]
  | cons call calls ih =>
    rw [performAll, ih, List.zip_cons_cons]
    -- one call adds a key only if it is an insertion of that key which is not refused
    have hstep : key ∈ (m.perform (R := R) call).2.keys ↔ key ∈ m.keys ∨
        ∃ isNew, (call, (m.perform (R := R) call).1) = (.insert key, .flag isNew) := by
      cases call with
      | insert k =>
        rw [perform]
        split_ifs with hmem hroom
        · simp only [Prod.mk.injEq, Call.insert.injEq, Answer.flag.injEq]
          constructor
          · exact .inl
          · rintro (h | ⟨-, rfl, -⟩)
            exacts [h, hmem]
        · simp only [keys_register, Finset.mem_insert, Prod.mk.injEq, Call.insert.injEq,
            Answer.flag.injEq, exists_and_left, exists_eq', and_true]
          rw [or_comm, eq_comm]
        · simp
      | contains k => simp [perform]
      | add k x =>
        rw [perform]
        split_ifs <;> simp
      | get k absent => simp [perform]
    rw [hstep, or_assoc, ← exists_or]
    simp only [List.mem_cons, eq_comm]

end BoundedMap

namespace ProbingTable

variable {V R : Type} {t : ProbingTable V} {key : Int}

/-! ## Insertions -/

/-- A table with a free slot has fewer keys than slots. -/
theorem card_storedKeys_lt {slot : Fin t.capacity} (hfree : t.keys.get slot = none) :
    t.storedKeys.card < t.capacity := by
  -- every key is read off one of the other slots
  have hsub : t.storedKeys ⊆
      (Finset.univ.erase slot).image fun s => (t.keys.get s).getD reservedKey := by
    intro key hkey
    obtain ⟨s, hs⟩ := mem_storedKeys.mp hkey
    have hne : s ≠ slot := by
      rintro rfl
      cases hfree.symm.trans hs
    exact Finset.mem_image.mpr ⟨s, by simpa using hne, by rw [hs, Option.getD_some]⟩
  have hle := (Finset.card_le_card hsub).trans Finset.card_image_le
  rw [Finset.card_erase_of_mem (Finset.mem_univ slot), Finset.card_univ, Fintype.card_fin] at hle
  have hpos := t.capacity_pos
  omega

theorem find?_eq_none (hkey : key ≠ reservedKey) (h : key ∉ t.storedKeys) : t.find? key = none := by
  unfold find?
  split
  next slot hlocate => exact absurd hlocate (locate_ne_taken hkey h slot)
  next => rfl

namespace IsValid

variable (ht : t.IsValid)

include ht

theorem length_occupied : t.occupied.length = t.size := by
  rw [ht.size_eq, storedKeys, List.toFinset_card_of_nodup ht.nodup_items_snd]
  simp [occupied]

end IsValid

variable [Zero V] [Add V] {m : BoundedMap V}

/-- The table behaves as the map. -/
structure Represents (t : ProbingTable V) (m : BoundedMap V) : Prop where
  /-- Every key that is stored is found. -/
  isValid : t.IsValid
  /-- There is room for as many keys. -/
  capacity_eq : t.capacity = m.capacity
  /-- Both are used for the same row. -/
  owner_eq : t.owner = m.owner
  /-- The same keys are present. -/
  storedKeys_eq : t.storedKeys = m.keys
  /-- The slot of a key holds the sum of what was added to it. -/
  value_eq {slot : Fin t.capacity} {key : Int} :
    t.keys.get slot = some key → t.values.get slot = m.total key
  /-- A free slot holds zero. -/
  blank {slot : Fin t.capacity} : t.keys.get slot = none → t.values.get slot = 0

theorem represents_empty {capacity : Nat} {h : 0 < capacity} {owner : Option Int} :
    (empty capacity h owner (0 : V)).Represents (BoundedMap.empty capacity owner) where
  isValid := isValid_empty
  capacity_eq := rfl
  owner_eq := rfl
  storedKeys_eq := storedKeys_empty
  value_eq {slot _} _ := isBlank_empty slot
  blank {slot} _ := isBlank_empty slot

namespace Represents

variable (h : t.Represents m)

include h

theorem mem_keys : key ∈ m.keys ↔ key ∈ t.storedKeys := by rw [h.storedKeys_eq]

/-- Storing a new key in a free slot registers the key with value zero. -/
theorem put {slot : Fin t.capacity} (hfree : t.keys.get slot = none)
    (hput : (t.put slot key).IsValid) (hnew : key ∉ t.storedKeys) :
    (t.put slot key).Represents (m.register key) where
  isValid := hput
  capacity_eq := h.capacity_eq
  owner_eq := h.owner_eq
  storedKeys_eq := by
    rw [storedKeys_put hfree, h.storedKeys_eq]
    rfl
  value_eq {s k} hs := by
    rcases get_keys_put_eq_some hs with ⟨hslot, hk⟩ | hold
    · -- the value that the key takes over is that of a free slot
      rw [hk, m.total_register_self]
      exact h.blank (hslot ▸ hfree)
    · have hne : k ≠ key := by
        rintro rfl
        exact hnew (mem_storedKeys.mpr ⟨s, hold⟩)
      rw [m.total_register_of_ne hne]
      exact h.value_eq hold
  blank {s} hs := by
    have hold := (get_keys_put slot s).symm.trans hs
    split_ifs at hold
    exact h.blank hold

/-- Adding to the value of a key in the table adds to what was added to it in the map. -/
theorem add (hkey : key ≠ reservedKey) {slot : Fin t.capacity} (hslot : t.keys.get slot = some key)
    {x : V} {t' : ProbingTable V} (hadd : t.add? key x = some t') :
    t'.Represents (m.addTo key x) := by
  rw [add?, h.isValid.locate_eq_taken hkey hslot] at hadd
  obtain rfl := Option.some.inj hadd
  have hget (s : Fin t.capacity) : (t.values.set slot (t.values.get slot + x)).get s =
      if slot.val = s.val then t.values.get slot + x else t.values.get s :=
    Vector.getElem_set slot.isLt s.isLt
  -- keys stay where they are, and only the slot of this one gets another value
  refine ⟨⟨h.isValid.distinct, h.isValid.reachable, h.isValid.size_eq⟩, h.capacity_eq, h.owner_eq,
    h.storedKeys_eq, ?_, ?_⟩
  · intro s k hs
    rw [hget]
    by_cases hk : k = key
    · obtain rfl := hk
      obtain rfl := h.isValid.distinct hslot hs
      rw [if_pos rfl, h.value_eq hslot, m.total_addTo_self]
    · have hne : slot.val ≠ s.val := by
        intro heq
        obtain rfl := Fin.ext heq
        exact hk (Option.some.inj (hs.symm.trans hslot))
      rw [if_neg hne, m.total_addTo_of_ne hk]
      exact h.value_eq hs
  · intro s hs
    have hne : slot.val ≠ s.val := by
      intro heq
      obtain rfl := Fin.ext heq
      cases hslot.symm.trans hs
    rw [hget, if_neg hne]
    exact h.blank hs

/-! ## One call -/

/-- A call on the table and on the map: the answers are the same, and the sides stay related. -/
def Agree (t : ProbingTable V) (m : BoundedMap V) (R : Type) (call : Call V) : Prop :=
  (t.perform call).1 = (m.perform call : Answer V R × BoundedMap V).1 ∧
    (t.perform (R := R) call).2.Represents (m.perform (R := R) call).2

theorem perform_insert (hkey : IsKey key) : Agree t m R (.insert key) := by
  rw [Agree, ProbingTable.perform, BoundedMap.perform]
  rcases h.isValid.insert_cases (R := R) hkey with
    ⟨hmem, hins⟩ | ⟨hmem, slot, hfree, hins, hput⟩ | ⟨hmem, hfull, hins⟩
  · rw [if_pos (h.mem_keys.mpr hmem), hins]
    exact ⟨rfl, h⟩
  · have hroom : m.keys.card < m.capacity := by
      rw [← h.storedKeys_eq, ← h.capacity_eq]
      exact card_storedKeys_lt hfree
    rw [if_neg (mt h.mem_keys.mp hmem), if_pos hroom, hins]
    exact ⟨rfl, h.put hfree hput hmem⟩
  · have hroom : ¬ m.keys.card < m.capacity := by
      rw [← h.storedKeys_eq, ← h.capacity_eq]
      exact Nat.not_lt.mpr hfull
    rw [if_neg (mt h.mem_keys.mp hmem), if_neg hroom, hins, h.capacity_eq, h.owner_eq]
    exact ⟨rfl, h⟩

theorem perform_contains (hkey : key ≠ reservedKey) : Agree t m R (.contains key) := by
  refine ⟨congrArg Answer.flag ?_, h⟩
  rw [Bool.eq_iff_iff, h.isValid.contains_iff hkey, decide_eq_true_eq, h.mem_keys]

theorem perform_add (hkey : key ≠ reservedKey) (x : V) : Agree t m R (.add key x) := by
  rw [Agree, ProbingTable.perform, BoundedMap.perform]
  by_cases hmem : key ∈ t.storedKeys
  · obtain ⟨slot, hslot⟩ := mem_storedKeys.mp hmem
    obtain ⟨t', hadd, -⟩ := h.isValid.exists_add? hkey hmem x
    rw [if_pos (h.mem_keys.mpr hmem), hadd]
    exact ⟨rfl, h.add hkey hslot hadd⟩
  · rw [if_neg (mt h.mem_keys.mp hmem), add?_eq_none hkey hmem]
    exact ⟨rfl, h⟩

theorem perform_get (hkey : key ≠ reservedKey) (absent : Option V) :
    Agree t m R (.get key absent) := by
  refine ⟨congrArg Answer.value ?_, h⟩
  by_cases hmem : key ∈ t.storedKeys
  · obtain ⟨slot, hslot⟩ := mem_storedKeys.mp hmem
    rw [if_pos (h.mem_keys.mpr hmem), h.isValid.find?_of_get hkey hslot, h.value_eq hslot,
      Option.some_or]
  · rw [if_neg (mt h.mem_keys.mp hmem), find?_eq_none hkey hmem, Option.none_or]

/-- A call has the same answer on both sides and keeps them related. -/
theorem perform (call : Call V) (hcall : IsKey call.key) : Agree t m R call := by
  cases call with
  | insert key => exact h.perform_insert hcall
  | contains key => exact h.perform_contains hcall.ne_reservedKey
  | add key x => exact h.perform_add hcall.ne_reservedKey x
  | get key absent => exact h.perform_get hcall.ne_reservedKey absent

/-- A history has the same answers on both sides and keeps them related. -/
theorem performAll (calls : List (Call V)) (hcalls : ∀ call ∈ calls, IsKey call.key) :
    (t.performAll calls).1 = (m.performAll calls : List (Answer V R) × BoundedMap V).1 ∧
      (t.performAll (R := R) calls).2.Represents (m.performAll (R := R) calls).2 := by
  induction calls generalizing t m with
  | nil => exact ⟨rfl, h⟩
  | cons call calls ih =>
    obtain ⟨hanswer, hnext⟩ := h.perform (R := R) call (hcalls call List.mem_cons_self)
    obtain ⟨hanswers, hlast⟩ := ih hnext fun c hc => hcalls c (List.mem_cons_of_mem call hc)
    exact ⟨congrArg₂ List.cons hanswer hanswers, hlast⟩

end Represents

/-! ## Histories -/

/-- A new table behaves as a map without keys and with room for as many as there are slots.  At the
end of every history, its size is the number of slots in use, and of the keys for which an insertion
was not refused. -/
theorem create_refines_boundedMap (capacity : Int) (hcapacity : 1 ≤ capacity) (owner : Option Int)
    (calls : List (Call V)) (hcalls : ∀ call ∈ calls, IsKey call.key) :
    ∃ (t last : ProbingTable V) (answers : List (Answer V R)),
      create capacity owner 0 = (.ok t : Except (Fault R) (ProbingTable V)) ∧
      t.performAll calls = (answers, last) ∧
      answers = ((BoundedMap.empty capacity.toNat owner).performAll calls).1 ∧
      last.Represents ((BoundedMap.empty capacity.toNat owner).performAll (R := R) calls).2 ∧
      last.size = last.occupied.length ∧ last.size = last.storedKeys.card ∧
      ∀ key, key ∈ last.storedKeys ↔
        ∃ isNew, (.insert key, .flag isNew) ∈ calls.zip answers := by
  have hpos : 0 < capacity.toNat := by omega
  have hempty : (empty capacity.toNat hpos owner (0 : V)).Represents
      (BoundedMap.empty capacity.toNat owner) := represents_empty
  obtain ⟨hanswers, hlast⟩ := hempty.performAll (R := R) calls hcalls
  refine ⟨empty capacity.toNat hpos owner 0, _, _, ?_, rfl, hanswers, hlast,
    hlast.isValid.length_occupied.symm, hlast.isValid.size_eq, fun key => ?_⟩
  · rw [create, dif_neg (by omega)]
    rfl
  · rw [hlast.storedKeys_eq, hanswers, BoundedMap.mem_keys_performAll]
    simp [BoundedMap.empty]

/-- Calls that fill a table with two slots.  All three keys have the same home. -/
def crowdedCalls : List (Call Int) :=
  [.insert 5, .insert 7, .add 7 3, .add 7 4, .insert 9, .add 9 1, .insert 5, .contains 9,
    .get 7 none, .get 9 (some 6)]

theorem create_refines_boundedMap_crowdedCalls :
    (1 : Int) ≤ 2 ∧ (∀ call ∈ crowdedCalls, IsKey call.key) ∧
      ∃ (t last : ProbingTable Int) (answers : List (Answer Int Unit)),
        create 2 (some 12) 0 = (.ok t : Except (Fault Unit) (ProbingTable Int)) ∧
        t.performAll crowdedCalls = (answers, last) ∧ last.size = 2 ∧
        answers = [.flag true, .flag true, .flag true, .flag true,
          .refused (.tableFull 2 (some 12)), .flag false, .flag false, .flag false,
          .value (some 7), .value (some 6)] := by
  have hkeys : ∀ call ∈ crowdedCalls, IsKey call.key := by decide
  obtain ⟨t, last, answers, ht, hrun, hanswers, hlast, -, hsize, -⟩ :=
    create_refines_boundedMap (R := Unit) 2 (by decide) (some 12) crowdedCalls hkeys
  refine ⟨by decide, hkeys, t, last, answers, ht, hrun, ?_, hanswers⟩
  rw [hsize, hlast.storedKeys_eq]
  rfl

end ProbingTable

end Multigrid
