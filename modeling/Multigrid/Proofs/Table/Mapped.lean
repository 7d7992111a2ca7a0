import Multigrid.Proofs.Table.Contents

/-!
# Tables with mapped values

No operation on a table looks at a value to find a key.  A function that is applied to all values
may therefore be applied before an operation or after it, if it is additive where the operation
adds.  In particular the values have no influence on whether a key can be registered.

## Main definitions

* `ProbingTable.mapValues`: a table with a function applied to its values

## Main results

* `ProbingTable.create_mapValues`, `ProbingTable.insertAll_mapValues`: making a table
* `ProbingTable.add?_mapValues`, `ProbingTable.sortedEntries_mapValues`: using it
-/

namespace Multigrid

namespace ProbingTable

variable {V V' R : Type} {f : V → V'} {t : ProbingTable V} {key : Int}

/-- The same keys, with `f` applied to every value. -/
def mapValues (f : V → V') (t : ProbingTable V) : ProbingTable V' :=
  ⟨t.capacity, t.keys, t.values.map f, t.size, t.owner, t.capacity_pos⟩

/-! ## Keys -/

theorem search_mapValues (f : V → V') (t : ProbingTable V) (key : Int) (slot : Fin t.capacity)
    (count : Nat) : (t.mapValues f).search key slot count = t.search key slot count := by
  induction count generalizing slot with
  | zero => rfl
  | succ count ih =>
    have hnext : (t.mapValues f).search key ((t.mapValues f).following slot) count =
        t.search key (t.following slot) count := ih (t.following slot)
    simp only [search]
    rw [hnext]
    rfl

theorem locate_mapValues (f : V → V') (t : ProbingTable V) (key : Int) :
    (t.mapValues f).locate key = t.locate key :=
  search_mapValues f t key (t.home key) t.capacity

theorem contains_mapValues (f : V → V') (t : ProbingTable V) (key : Int) :
    (t.mapValues f).contains key = t.contains key := by
  unfold contains
  rw [locate_mapValues]
  cases t.locate key <;> rfl

theorem create_mapValues (f : V → V') (capacity : Int) (owner : Option Int) (blank : V) :
    (create capacity owner (f blank) : Except (Fault R) (ProbingTable V')) =
      (create capacity owner blank).map (mapValues f) := by
  unfold create
  split_ifs with h
  · rfl
  · refine congrArg Except.ok ?_
    unfold mapValues
    rw [Vector.map_replicate]

theorem insert_mapValues (f : V → V') (t : ProbingTable V) (key : Int) :
    ((t.mapValues f).insert key : Except (Fault R) (Bool × ProbingTable V')) =
      (t.insert key).map fun (isNew, t') => (isNew, t'.mapValues f) := by
  unfold insert
  rw [locate_mapValues]
  cases t.locate key with
  | taken slot => rfl
  | exhausted => rfl
  | free slot =>
    dsimp only
    split_ifs <;> rfl

/-- Keys can be registered or not whatever the values are. -/
theorem insertAll_mapValues (f : V → V') (keys : List Int) (t : ProbingTable V) :
    ((t.mapValues f).insertAll keys : Except (Fault R) (ProbingTable V')) =
      (t.insertAll keys).map (mapValues f) := by
  induction keys generalizing t with
  | nil => rfl
  | cons key keys ih =>
    rw [insertAll, insertAll, List.foldlM_cons, List.foldlM_cons, insert_mapValues]
    cases (t.insert key : Except (Fault R) (Bool × ProbingTable V)) with
    | error fault => rfl
    | ok result => exact ih result.2

/-! ## Values -/

/-- An additive function may be applied before or after a value is added. -/
theorem add?_mapValues [Add V] [Add V'] (hf : ∀ x y, f (x + y) = f x + f y) (t : ProbingTable V)
    (key : Int) (x : V) : (t.mapValues f).add? key (f x) = (t.add? key x).map (mapValues f) := by
  unfold add?
  rw [locate_mapValues]
  cases t.locate key with
  | free slot => rfl
  | exhausted => rfl
  | taken slot =>
    refine congrArg some ?_
    have hget : (t.mapValues f).values.get slot = f (t.values.get slot) :=
      Vector.getElem_map f slot.isLt
    unfold mapValues at hget ⊢
    dsimp only at hget ⊢
    rw [hget, ← hf, Vector.map_set]

theorem sortedEntries_mapValues (f : V → V') (t : ProbingTable V) :
    (t.mapValues f).sortedEntries = t.sortedEntries.map fun (key, x) => (key, f x) := by
  rw [sortedEntries, sortedEntries, List.map_map]
  apply List.map_congr_left
  intro item _
  exact congrArg (Prod.mk item.2) (Vector.getElem_map f item.1.isLt)

/-- A function that keeps all values keeps the table. -/
theorem mapValues_eq_self {f : V → V} (h : ∀ slot, f (t.values.get slot) = t.values.get slot) :
    t.mapValues f = t := by
  have hvalues : t.values.map f = t.values :=
    Vector.ext fun i hi => (Vector.getElem_map f hi).trans (h ⟨i, hi⟩)
  unfold mapValues
  rw [hvalues]

theorem SameKeys.contains_eq {t t' : ProbingTable V} (h : t.SameKeys t') (key : Int) :
    t'.contains key = t.contains key := by
  obtain ⟨values, rfl⟩ := h
  -- both tables give the same one when the values are forgotten
  rw [← contains_mapValues (fun _ => ()) t, ← contains_mapValues (fun _ => ())]
  congr 1
  unfold mapValues
  congr 1
  ext

end ProbingTable

end Multigrid
