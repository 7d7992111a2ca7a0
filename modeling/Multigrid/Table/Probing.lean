import Multigrid.Fault

/-!
# Tables with linear probing

A table holds keys in a fixed number of slots, each with a value.  A key has a home slot; if that
is taken by another key, the following slots are tried in turn, from the last one on to the first.
Keys are never removed, so a search may stop at the first free slot.  A full table refuses new
keys.

The reserved key counts as present at every free slot and is never stored.

## Main definitions

* `ProbingTable`: the slots
* `ProbingTable.locate`: the search for a key
* `ProbingTable.insert`, `ProbingTable.add?`, `ProbingTable.find?`: registering a key, adding to
  its value, and reading its value
* `ProbingTable.occupied`, `ProbingTable.ranks`: the slots in use, and the ranks of their keys
* `ProbingTable.sortedKeys`, `ProbingTable.sortedEntries`: the contents in ascending order of keys
-/

namespace Multigrid

/-- A table of values of type `V` under integer keys. -/
structure ProbingTable (V : Type) where
  /-- The number of slots. -/
  capacity : Nat
  /-- The key in every slot that is in use. -/
  keys : Vector (Option Int) capacity
  /-- The value of every slot. -/
  values : Vector V capacity
  /-- The number of keys. -/
  size : Nat
  /-- The row that the table is used for. -/
  owner : Option Int
  /-- There is at least one slot. -/
  capacity_pos : 0 < capacity

/-- Where the search for a key ends. -/
inductive Probe (capacity : Nat) where
  /-- At a slot that holds the key. -/
  | taken (slot : Fin capacity)
  /-- At a free slot. -/
  | free (slot : Fin capacity)
  /-- Nowhere: all slots hold other keys. -/
  | exhausted

namespace ProbingTable

variable {V R : Type}

/-- The key that is never stored. -/
def reservedKey : Int := -1

/-- The factor that spreads neighbouring keys over the slots. -/
def spread : Int := 103

/-- Does a key fit into a slot? -/
def fits (key : Int) : Bool := -0x8000000000000000 ≤ key ∧ key < 0x8000000000000000

/-- A table without keys, every value `blank`. -/
def create (capacity : Int) (owner : Option Int) (blank : V) : Except (Fault R) (ProbingTable V) :=
  if h : capacity < 1 then
    .error .emptyTable
  else
    .ok ⟨capacity.toNat, .replicate _ none, .replicate _ blank, 0, owner, by omega⟩

/-! ## Search -/

/-- The slot at which the search for a key starts. -/
def home (t : ProbingTable V) (key : Int) : Fin t.capacity :=
  ⟨(key * spread % t.capacity).toNat, by
    have := t.capacity_pos
    have := Int.emod_nonneg (key * spread) (b := t.capacity) (by omega)
    have := Int.emod_lt_of_pos (key * spread) (b := t.capacity) (by omega)
    omega⟩

/-- The slot after a slot; the first one follows the last one. -/
def following (t : ProbingTable V) (slot : Fin t.capacity) : Fin t.capacity :=
  ⟨(slot + 1) % t.capacity, Nat.mod_lt _ t.capacity_pos⟩

/-- Searches for a key in `count` slots, starting with `slot`. -/
def search (t : ProbingTable V) (key : Int) (slot : Fin t.capacity) : (count : Nat) →
    Probe t.capacity
  | 0 => .exhausted
  | count + 1 =>
    match t.keys.get slot with
    | some k => if k = key then .taken slot else t.search key (t.following slot) count
    | none => if key = reservedKey then .taken slot else .free slot

/-- Searches for a key. -/
def locate (t : ProbingTable V) (key : Int) : Probe t.capacity :=
  t.search key (t.home key) t.capacity

/-! ## Operations -/

/-- Registers a key, which keeps the value of its slot.  The flag says whether the key is new. -/
def insert (t : ProbingTable V) (key : Int) : Except (Fault R) (Bool × ProbingTable V) :=
  match t.locate key with
  | .taken _ => .ok (false, t)
  | .exhausted => .error (.tableFull t.capacity t.owner)
  | .free slot =>
    if fits key then .ok (true, { t with keys := t.keys.set slot (some key), size := t.size + 1 })
    else .error (.keyOutOfRange key)

/-- Registers keys one after the other. -/
def insertAll (t : ProbingTable V) (keys : List Int) : Except (Fault R) (ProbingTable V) :=
  keys.foldlM (fun t key => return (← t.insert key).2) t

/-- Is the key present? -/
def contains (t : ProbingTable V) (key : Int) : Bool :=
  match t.locate key with
  | .taken _ => true
  | _ => false

/-- Adds `x` to the value of a key, if the key is present. -/
def add? [Add V] (t : ProbingTable V) (key : Int) (x : V) : Option (ProbingTable V) :=
  match t.locate key with
  | .taken slot => some { t with values := t.values.set slot (t.values.get slot + x) }
  | _ => none

/-- The value of a key, if the key is present. -/
def find? (t : ProbingTable V) (key : Int) : Option V :=
  match t.locate key with
  | .taken slot => some (t.values.get slot)
  | _ => none

/-! ## Contents -/

/-- The slots in use, each with its key, in the order of the slots. -/
def items (t : ProbingTable V) : List (Fin t.capacity × Int) :=
  (List.finRange t.capacity).filterMap fun slot => (t.keys.get slot).map fun key => (slot, key)

/-- The slots in use, in their order. -/
def occupied (t : ProbingTable V) : List (Fin t.capacity) := t.items.map Prod.fst

/-- For every slot in use the number of keys that are smaller than its own. -/
def ranks (t : ProbingTable V) : List Nat :=
  let keys := t.items.map Prod.snd
  keys.map fun key => keys.countP (· < key)

/-- The slots in use with their keys, every one at the position that its rank gives. -/
def ranked (t : ProbingTable V) : List (Fin t.capacity × Int) :=
  let items := t.items.zip t.ranks
  (List.range t.size).filterMap fun rank => (items.find? (·.2 = rank)).map Prod.fst

/-- The keys in ascending order. -/
def sortedKeys (t : ProbingTable V) : List Int := t.ranked.map Prod.snd

/-- The keys in ascending order, each with its value. -/
def sortedEntries (t : ProbingTable V) : List (Int × V) :=
  t.ranked.map fun (slot, key) => (key, t.values.get slot)

end ProbingTable

end Multigrid
