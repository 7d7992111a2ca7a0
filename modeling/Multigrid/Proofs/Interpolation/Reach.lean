import Multigrid.Interpolation.Extended
import Multigrid.Proofs.Sparse.RowBuffer
import Multigrid.Proofs.Strength.Relation
import Multigrid.Proofs.Table.Contents

/-!
# Reached points

A point that is not coarse reaches a coarse point in one strong connection or in two.  The
traversal meets the reached points in storage order and may meet one of them many times.  The
bounds count them with repetitions, and those that a strong entry on the diagonal adds, so a table
of the chosen capacity has room for all of them, whatever their home slots are.

## Main definitions

* `Extended.HandsOn`, `Extended.Reaches`: the reached points, without the traversal
* `Extended.reachedPoints`: the reached points in ascending order, each of them once

## Main results

* `Extended.mem_reached`: the traversal meets the reached points
* `Extended.exists_reachTable`: the table of a point holds its reached points
* `Extended.rowSizes_eq`: the length of a row is the number of its points
-/

namespace Multigrid

namespace Extended

variable {α V R : Type} {n : Nat}

/-! ## The relation -/

section Relation

variable (G : StrengthGraph α n) (labels : Vector Label n) (firstOnly : Bool)

/-- Point `k` hands its neighbour on to the coarse point `l`, for which row `k` has a strong entry.
With `firstOnly`, no strong entry in the column of a coarse point is stored before that one. -/
def HandsOn (k l : Fin n) : Prop :=
  ∃ before c after, G.row k = before ++ c :: after ∧ c.strong = true ∧ c.column = l ∧
    labels.get l = .coarse ∧
    (firstOnly = true → ∀ b ∈ before, b.strong = true → labels.get b.column ≠ .coarse)

/-- Point `i` reaches the coarse point `l` in one strong connection, or in two by way of a point
that is not coarse. -/
inductive Reaches (i l : Fin n) : Prop where
  /-- By a strong entry of row `i`. -/
  | direct (strong : G.IsStrong i l) (ne : l ≠ i) (coarse : labels.get l = .coarse)
  /-- By a strong entry of row `i` in the column of a point that hands on to `l`. -/
  | handedOn {k : Fin n} (strong : G.IsStrong i k) (ne : k ≠ i) (notCoarse : labels.get k ≠ .coarse)
      (handsOn : HandsOn G labels firstOnly k l)

variable {G labels firstOnly}

theorem HandsOn.isStrong {k l : Fin n} (h : HandsOn G labels firstOnly k l) : G.IsStrong k l := by
  obtain ⟨before, c, after, hrow, hstrong, hcolumn, -, -⟩ := h
  exact ⟨c, by simp [hrow], hstrong, hcolumn⟩

theorem mem_take_one {β : Type} {xs : List β} {x : β} : x ∈ xs.take 1 ↔ xs.head? = some x := by
  cases xs with
  | nil => simp
  | cons y ys => simp [eq_comm]

theorem strongCoarse_eq_filter (k : Fin n) :
    strongCoarse G labels k =
      (G.row k).filter fun c => c.strong && decide (labels.get c.column = .coarse) := by
  rw [strongCoarse, StrengthGraph.strongRow, List.filter_filter]
  exact List.filter_congr fun c _ => Bool.and_comm _ _

theorem mem_handedOn {k l : Fin n} :
    l ∈ handedOn G labels firstOnly k ↔ HandsOn G labels firstOnly k l := by
  rw [handedOn, strongCoarse_eq_filter, HandsOn]
  cases firstOnly with
  | false =>
    -- every strong coarse entry has some entries before it
    simp only [Bool.false_eq_true, if_false, List.mem_map, List.mem_filter, Bool.and_eq_true,
      decide_eq_true_eq, false_implies, and_true]
    constructor
    · rintro ⟨c, ⟨hc, hs, hl⟩, rfl⟩
      obtain ⟨before, after, h⟩ := List.append_of_mem hc
      exact ⟨before, c, after, h, hs, rfl, hl⟩
    · rintro ⟨before, c, after, h, hs, rfl, hl⟩
      exact ⟨c, ⟨by rw [h]; simp, hs, hl⟩, rfl⟩
  | true =>
    -- the first entry of a filtered list is the first that passes the test
    simp only [if_true, mem_take_one, List.head?_map, List.head?_filter, Option.map_eq_some_iff,
      List.find?_eq_some_iff_append, Bool.and_eq_true, decide_eq_true_eq, Bool.not_eq_true',
      Bool.and_eq_false_iff, decide_eq_false_iff_not, true_implies]
    constructor
    · rintro ⟨c, ⟨⟨hs, hl⟩, before, after, h, hbefore⟩, rfl⟩
      refine ⟨before, c, after, h, hs, rfl, hl, fun b hb hstrong => ?_⟩
      rcases hbefore b hb with hweak | hl'
      · rw [hstrong] at hweak
        cases hweak
      · exact hl'
    · rintro ⟨before, c, after, h, hs, rfl, hl, hbefore⟩
      refine ⟨c, ⟨⟨hs, hl⟩, before, after, h, fun b hb => ?_⟩, rfl⟩
      cases hstrong : b.strong with
      | false => exact .inl rfl
      | true => exact .inr (hbefore b hb hstrong)

/-- The traversal of row `i` meets the points that `i` reaches. -/
theorem mem_reached {i l : Fin n} :
    l ∈ reached G labels firstOnly i ↔ Reaches G labels firstOnly i l := by
  simp only [reached, reachedBy, List.mem_flatMap, List.mem_filter, decide_eq_true_eq]
  constructor
  · rintro ⟨c, ⟨hc, hne⟩, hl⟩
    have hstrong : G.IsStrong i c.column :=
      ⟨c, (StrengthGraph.mem_strongRow.mp hc).1, (StrengthGraph.mem_strongRow.mp hc).2, rfl⟩
    -- the traversal stops at a coarse point, and goes on from any other
    split_ifs at hl with hcoarse
    · obtain rfl := List.mem_singleton.mp hl
      exact .direct hstrong hne hcoarse
    · exact .handedOn hstrong hne hcoarse (mem_handedOn.mp hl)
  · rintro (⟨⟨c, hc, hs, rfl⟩, hne, hcoarse⟩ | ⟨⟨c, hc, hs, rfl⟩, hne, hcoarse, hon⟩)
    · exact ⟨c, ⟨StrengthGraph.mem_strongRow.mpr ⟨hc, hs⟩, hne⟩, by rw [if_pos hcoarse]; simp⟩
    · exact ⟨c, ⟨StrengthGraph.mem_strongRow.mpr ⟨hc, hs⟩, hne⟩,
        by rw [if_neg hcoarse]; exact mem_handedOn.mpr hon⟩

theorem Reaches.coarse {i l : Fin n} (h : Reaches G labels firstOnly i l) :
    labels.get l = .coarse := by
  rcases h with ⟨-, -, hl⟩ | ⟨-, -, -, _, _, _, -, -, -, hl, -⟩
  · exact hl
  · exact hl

end Relation

/-! ## The capacity of tables -/

theorem le_foldl_max (bounds : List Int) (a : Int) :
    a ≤ bounds.foldl max a ∧ ∀ b ∈ bounds, b ≤ bounds.foldl max a := by
  induction bounds generalizing a with
  | nil => simp
  | cons bound bounds ih =>
    obtain ⟨hle, hall⟩ := ih (max a bound)
    refine ⟨(le_max_left a bound).trans hle, fun b hb => ?_⟩
    rcases List.mem_cons.mp hb with rfl | hb
    · exact (le_max_right a b).trans hle
    · exact hall b hb

/-- A table has more slots than any of the bounds says. -/
theorem lt_tableCapacity {bounds : List Int} {b : Int} (hb : b ∈ bounds) :
    b < tableCapacity bounds := by
  have hmost : b ≤ ((bounds.foldl max 0).toNat : Int) :=
    ((le_foldl_max bounds 0).2 b hb).trans (Int.self_le_toNat _)
  have hpow := Nat.lt_log2_self (n := (bounds.foldl max 0).toNat)
  have hle : (bounds.foldl max 0).toNat < tableCapacity bounds := by
    rw [tableCapacity, Nat.one_shiftLeft]
    exact lt_max_of_lt_right hpow
  omega

section Capacity

variable (G : StrengthGraph α n) (labels : Vector Label n) (firstOnly : Bool)

/-- The chosen capacity is above the number of points that a traversal meets. -/
theorem length_reached_lt {i : Fin n} (hi : labels.get i ≠ .coarse) :
    ((reached G labels firstOnly i).length : Int) < chosenCapacity G labels firstOnly none := by
  have hbound : ((reachedBy G labels firstOnly (G.strongRow i)).length : Int) ∈
      (reachBounds G labels firstOnly).toList.map Int.ofNat := by
    refine List.mem_map.mpr ⟨_, Vector.mem_toList_iff.mpr (Vector.mem_ofFn.mpr ⟨i, rfl⟩), ?_⟩
    rw [if_neg hi]
    rfl
  -- the traversal leaves out the diagonal, which the bound counts
  have hle : (reached G labels firstOnly i).length ≤
      (reachedBy G labels firstOnly (G.strongRow i)).length :=
    (List.filter_sublist.flatMap _).length_le
  have hlt := lt_tableCapacity hbound
  rw [chosenCapacity]
  omega

end Capacity

/-! ## The table of a point -/

section Table

variable (G : StrengthGraph α n) (labels : Vector Label n) (firstOnly : Bool)

/-- The reached points in ascending order, each of them once. -/
def reachedPoints (i : Fin n) : List (Fin n) :=
  (List.finRange n).filter fun l => (reached G labels firstOnly i).contains l

/-- The keys that the traversal of row `i` registers. -/
def reachedKeys (i : Fin n) : List Int := (reached G labels firstOnly i).map fun l => l.val

/-- The points in whose columns a row has its entries. -/
def rowPoints (i : Fin n) : List (Fin n) :=
  if labels.get i = .coarse then [i] else reachedPoints G labels firstOnly i

theorem pairwise_reachedPoints (i : Fin n) :
    (reachedPoints G labels firstOnly i).Pairwise (· < ·) :=
  (List.pairwise_lt_finRange n).filter _

variable {G labels firstOnly}

theorem mem_reachedPoints {i l : Fin n} :
    l ∈ reachedPoints G labels firstOnly i ↔ Reaches G labels firstOnly i l := by
  simp [reachedPoints, mem_reached]

theorem isKey_val (hn : n ≤ 0x8000000000000000) (l : Fin n) : ProbingTable.IsKey l.val := by
  have hl := l.isLt
  refine ⟨Int.natCast_nonneg l.val, ?_⟩
  simp only [ProbingTable.fits, Bool.decide_and, Bool.and_eq_true, decide_eq_true_eq]
  omega

theorem mem_reachedKeys {i : Fin n} {key : Int} :
    key ∈ reachedKeys G labels firstOnly i ↔
      key ∈ (reachedPoints G labels firstOnly i).map fun l => (l.val : Int) := by
  simp only [reachedKeys, List.mem_map, mem_reachedPoints, mem_reached]

theorem coarse_of_mem_rowPoints {i l : Fin n} (h : l ∈ rowPoints G labels firstOnly i) :
    labels.get l = .coarse := by
  rw [rowPoints] at h
  split_ifs at h with hi
  · obtain rfl := List.mem_singleton.mp h
    exact hi
  · exact (mem_reachedPoints.mp h).coarse

/-- A table with the keys of a traversal lists the reached points. -/
theorem sortedKeys_eq_map_reachedPoints {i : Fin n} {t : ProbingTable V} (ht : t.IsValid)
    (h : t.storedKeys = (reachedKeys G labels firstOnly i).toFinset) :
    t.sortedKeys = (reachedPoints G labels firstOnly i).map fun l => (l.val : Int) := by
  have hascending := (pairwise_reachedPoints G labels firstOnly i).map
    (fun l : Fin n => (l.val : Int)) fun a b hab => Int.ofNat_lt.mpr hab
  -- two ascending lists with the same members
  apply ProbingTable.pairwise_sortedKeys.eq_of_mem_iff hascending
  intro key
  rw [ht.mem_sortedKeys, h, List.mem_toFinset, mem_reachedKeys]

variable (G labels firstOnly)

/-- The table of a point that is not coarse holds the points that it reaches. -/
theorem exists_reachTable (hn : n ≤ 0x8000000000000000) {i : Fin n} (hi : labels.get i ≠ .coarse)
    (blank : V) :
    ∃ t : ProbingTable V,
      reachTable G labels firstOnly (chosenCapacity G labels firstOnly none) blank i =
        (.ok t : Except (Fault R) (ProbingTable V)) ∧
      t.sortedKeys = (reachedPoints G labels firstOnly i).map (fun l => (l.val : Int)) ∧
      t.size = (reachedPoints G labels firstOnly i).length := by
  have hlen := length_reached_lt G labels firstOnly hi
  obtain ⟨capacity, hcap⟩ : ∃ capacity : Nat,
      chosenCapacity G labels firstOnly none = (capacity : Int) := ⟨_, rfl⟩
  rw [hcap] at hlen ⊢
  have hpos : 0 < capacity := by omega
  -- the keys are no more than the points that the traversal meets
  have hroom : ((ProbingTable.empty capacity hpos (some i) blank).storedKeys ∪
      (reachedKeys G labels firstOnly i).toFinset).card ≤ capacity := by
    rw [ProbingTable.storedKeys_empty, Finset.empty_union]
    have hle := List.toFinset_card_le (reachedKeys G labels firstOnly i)
    rw [reachedKeys, List.length_map] at hle
    exact hle.trans (by omega)
  have hkeys : ∀ key ∈ reachedKeys G labels firstOnly i, ProbingTable.IsKey key := by
    intro key hkey
    obtain ⟨l, -, rfl⟩ := List.mem_map.mp hkey
    exact isKey_val hn l
  obtain ⟨t, ht, hvalid, -, hstored⟩ := ProbingTable.exists_insertAll (R := R) _
    (ProbingTable.empty capacity hpos (some i) blank) ProbingTable.isValid_empty hkeys hroom
  rw [ProbingTable.storedKeys_empty, Finset.empty_union] at hstored
  have hsorted := sortedKeys_eq_map_reachedPoints hvalid hstored
  refine ⟨t, ?_, hsorted, ?_⟩
  · rw [reachTable, ProbingTable.create_eq_ok]
    exact ht
  · rw [← hvalid.length_sortedKeys, hsorted, List.length_map]

theorem rowSize_eq (hn : n ≤ 0x8000000000000000) (i : Fin n) :
    rowSize G labels firstOnly (chosenCapacity G labels firstOnly none) i =
      (.ok (rowPoints G labels firstOnly i).length : Except (Fault R) Nat) := by
  by_cases hi : labels.get i = .coarse
  · rw [rowSize, if_pos hi, rowPoints, if_pos hi]
    rfl
  · obtain ⟨t, ht, -, hsize⟩ := exists_reachTable (R := R) G labels firstOnly hn hi ()
    rw [rowSize, if_neg hi, ht, rowPoints, if_neg hi, ← hsize]
    rfl

/-- The lengths of all rows are found to be the numbers of their points. -/
theorem rowSizes_eq (hn : n ≤ 0x8000000000000000) :
    rowSizes G labels firstOnly none .full = (.ok ((List.finRange n).map fun i =>
      (rowPoints G labels firstOnly i).length) : Except (Fault R) (List Nat)) := by
  have hsizes := mapM_eq_ok (List.finRange n) fun i _ =>
    rowSize_eq (R := R) G labels firstOnly hn i
  simp only [rowSizes, RowPlan.full, hsizes]
  rfl

end Table

end Extended

end Multigrid
