import Multigrid.Proofs.Interpolation.DirectScaling
import Multigrid.Proofs.Interpolation.Rows

/-!
# Extended interpolation of scaled rows

While row `i` is gathered, the entries of strong fine neighbours are read as well, and their rows
have factors of their own.  What neighbour `k` hands on of an entry is the entry times a value of
row `k` over a sum of such values.  The factor of row `k` is divided out there, and what is left has
the factor of row `i`, as every other amount in the table has.  It is divided out again by the
denominator of the row.

Signs are compared across rows, but factors above zero keep them.  The points that are reached, and
whether there is room for them in a table, have nothing to do with values.

## Main definitions

* `Extended.Gathered.scaled`: the amounts of a row multiplied by a factor
* `Extended.guardTests`: the outcomes of the tests against the guard

## Main results

* `Extended.gather_rowScaled`: what a row gathers
* `Extended.prolongator_rowScaled`: the prolongator
-/

namespace Multigrid

namespace Extended

variable {R : Type} {n : Nat} {d : Fin n → Rat}

/-! ## Reached points -/

section Reach

variable (G : StrengthGraph Rat n) (labels : Vector Label n) (firstOnly : Bool)

theorem handedOn_rowScaled (k : Fin n) :
    handedOn (G.rowScaled d) labels firstOnly k = handedOn G labels firstOnly k := by
  have hcolumns : (strongCoarse (G.rowScaled d) labels k).map (·.column) =
      (strongCoarse G labels k).map (·.column) := by
    rw [strongCoarse_rowScaled, List.map_map]
    rfl
  rw [handedOn, hcolumns, handedOn]

theorem reachedBy_map_scaled (s : Rat) (connections : List (Connection Rat n)) :
    reachedBy (G.rowScaled d) labels firstOnly (connections.map (Connection.scaled s)) =
      reachedBy G labels firstOnly connections := by
  rw [reachedBy, reachedBy, List.flatMap_map]
  simp only [handedOn_rowScaled]
  rfl

theorem reached_rowScaled (i : Fin n) :
    reached (G.rowScaled d) labels firstOnly i = reached G labels firstOnly i := by
  rw [reached, StrengthGraph.strongRow_rowScaled, List.filter_map, reachedBy_map_scaled]
  rfl

theorem chosenCapacity_rowScaled (given : Option Int) :
    chosenCapacity (G.rowScaled d) labels firstOnly given =
      chosenCapacity G labels firstOnly given := by
  have hbounds : reachBounds (G.rowScaled d) labels firstOnly = reachBounds G labels firstOnly := by
    unfold reachBounds
    simp only [StrengthGraph.strongRow_rowScaled, reachedBy_map_scaled]
  cases given with
  | none => rw [chosenCapacity, hbounds, chosenCapacity]
  | some capacity => rfl

theorem reachTable_rowScaled {V : Type} (capacity : Int) (blank : V) (i : Fin n) :
    (reachTable (G.rowScaled d) labels firstOnly capacity blank i :
      Except (Fault R) (ProbingTable V)) = reachTable G labels firstOnly capacity blank i := by
  rw [reachTable, reached_rowScaled, reachTable]

/-- The lengths of the rows do not change. -/
theorem rowSizes_rowScaled (given : Option Int) (plan : RowPlan n) :
    (rowSizes (G.rowScaled d) labels firstOnly given plan : Except (Fault R) (List Nat)) =
      rowSizes G labels firstOnly given plan := by
  have hsize : (rowSize (G.rowScaled d) labels firstOnly
      (chosenCapacity G labels firstOnly given) : Fin n → Except (Fault R) Nat) =
      rowSize G labels firstOnly (chosenCapacity G labels firstOnly given) := by
    funext i
    rw [rowSize, reachTable_rowScaled, rowSize]
  rw [rowSizes, chosenCapacity_rowScaled, hsize, rowSizes]

end Reach

/-! ## Amounts -/

/-- The amounts of a row multiplied by `s`. -/
def Gathered.scaled (s : Rat) (g : Gathered Rat Rat) : Gathered Rat Rat :=
  ⟨g.table.mapValues (s * ·), s * g.returned, s * g.lumped⟩

theorem isNonnegative_mul {s : Rat} (hs : 0 < s) (x : Rat) :
    isNonnegative (s * x) = isNonnegative x :=
  decide_eq_decide.mpr (mul_nonneg_iff_of_pos_left hs)

/-- A factor that is divided out and replaced by another one. -/
theorem exchange_factor {t : Rat} (ht : t ≠ 0) (s x ratio : Rat) :
    t * x * (s / t * ratio) = s * (x * ratio) := by
  field_simp

/-- A quotient that counts as zero for both denominators or for none. -/
theorem guardedDiv_scaled (s : Rat) {t sum : Rat} (x : Rat)
    (h : exceedsGuard (t * sum) = exceedsGuard sum) :
    (if divisionGuard < Arith.magnitude (t * sum) then s * x / (t * sum) else 0) =
      s / t * if divisionGuard < Arith.magnitude sum then x / sum else 0 := by
  rw [mul_ite, mul_zero, div_mul_div_comm]
  exact if_congr (guard_lt_magnitude_congr h) rfl rfl

theorem deposit_mapValues (s : Rat) (t : ProbingTable Rat) (k : Fin n) (x : Rat) :
    deposit (t.mapValues (s * ·)) k (s * x) = (deposit t k x).mapValues (s * ·) := by
  have hadd := ProbingTable.add?_mapValues (mul_add s) t k.val x
  have hdeposit : deposit t k x = (t.add? k.val x).getD t := rfl
  rw [hdeposit]
  refine (congrArg (·.getD (t.mapValues (s * ·))) hadd).trans ?_
  cases t.add? k.val x <;> rfl

/-- What an entry adds itself, after what it hands on. -/
def absorb (labels : Vector Label n) (c : Connection Rat n) (g : Gathered Rat Rat) :
    Gathered Rat Rat :=
  match if labels.get c.column = .coarse then g.table.add? c.column c.value else none with
  | some table => { g with table }
  | none => if c.strong then g else { g with lumped := g.lumped + c.value }

theorem gatherEntry_eq_absorb (G : StrengthGraph Rat n) (labels : Vector Label n)
    (diagonal : Vector Rat n) (i : Fin n) (g : Gathered Rat Rat) (c : Connection Rat n) :
    gatherEntry G labels diagonal i g c =
      absorb labels c (if c.strong = true ∧ labels.get c.column = .fine then
        distribute G labels diagonal i c.column c.value g else g) := by
  unfold gatherEntry absorb
  dsimp only
  rw [show Storage.widen c.value = c.value from rfl, show Storage.narrow c.value = c.value from rfl]
  generalize (if c.strong = true ∧ labels.get c.column = .fine then
    distribute G labels diagonal i c.column c.value g else g) = g₁
  cases (if labels.get c.column = .coarse then g₁.table.add? c.column c.value else none) <;> rfl

theorem absorb_scaled (s : Rat) (labels : Vector Label n) (c : Connection Rat n)
    (g : Gathered Rat Rat) :
    absorb labels (c.scaled s) (g.scaled s) = (absorb labels c g).scaled s := by
  have hadd : (if labels.get c.column = .coarse then
      (g.table.mapValues (s * ·)).add? c.column (s * c.value) else none) =
      (if labels.get c.column = .coarse then g.table.add? c.column c.value else none).map
        (ProbingTable.mapValues (s * ·)) := by
    rw [ProbingTable.add?_mapValues (mul_add s)]
    split_ifs <;> rfl
  have hlumped : s * g.lumped + s * c.value = s * (g.lumped + c.value) := (mul_add _ _ _).symm
  unfold absorb
  refine (congrArg (fun deposited => match deposited with
    | some table => { g.scaled s with table }
    | none => if c.strong then g.scaled s else
      { g.scaled s with lumped := s * g.lumped + s * c.value }) hadd).trans ?_
  rw [hlumped]
  cases (if labels.get c.column = .coarse then g.table.add? c.column c.value else none) with
  | some table => rfl
  | none =>
    cases hstrong : c.strong <;> rfl

section Gather

variable {G : StrengthGraph Rat n} {labels : Vector Label n} {diagonal diagonal' : Vector Rat n}

theorem backEntry_rowScaled (i k : Fin n) :
    backEntry (G.rowScaled d) i k = d k * backEntry G i k := by
  have hback : ((G.rowScaled d).row k).filter (·.column = i) =
      ((G.row k).filter (·.column = i)).map (Connection.scaled (d k)) := by
    rw [StrengthGraph.row_rowScaled, List.filter_map]
    rfl
  unfold backEntry
  rw [hback, List.getLast?_map]
  cases ((G.row k).filter (·.column = i)).getLast? with
  | none => exact (mul_zero (d k)).symm
  | some c => rfl

variable (hd : ∀ i, 0 < d i) (hdiagonal : ∀ i, diagonal'.get i = d i * diagonal.get i)

include hd hdiagonal

/-- What a neighbour shares is a sum over its own row. -/
theorem sharedSum_rowScaled {t t' : ProbingTable Rat}
    (hkeys : ∀ key, t'.contains key = t.contains key) (i k : Fin n) :
    sharedSum (G.rowScaled d) labels diagonal' t' i k =
      d k * sharedSum G labels diagonal t i k := by
  unfold sharedSum
  rw [StrengthGraph.row_rowScaled, List.foldl_map, ← List.foldl_hom (d k * ·), mul_zero]
  intro sum c
  have hsign : isNonnegative (diagonal'.get i) ≠ isNonnegative (d k * c.value) ↔
      isNonnegative (diagonal.get i) ≠ isNonnegative c.value := by
    rw [hdiagonal, isNonnegative_mul (hd i), isNonnegative_mul (hd k)]
  rw [mul_ite, mul_add]
  refine if_congr (and_congr ?_ hsign) rfl rfl
  exact or_congr Iff.rfl (and_congr Iff.rfl (by rw [← hkeys]; rfl))

omit hd in
/-- A value is handed on or not by its sign and the one of the diagonal of its row. -/
theorem opposes_rowScaled {k : Fin n} (hk : 0 < d k) (x : Rat) :
    decide (isNonnegative (diagonal'.get k) ≠ isNonnegative (d k * x)) =
      decide (isNonnegative (diagonal.get k) ≠ isNonnegative x) := by
  rw [hdiagonal, isNonnegative_mul hk, isNonnegative_mul hk]

/-- A value of row `k` loses the factor of row `k` and gets the one of row `i`. -/
theorem foldl_deposit_rowScaled (i k : Fin n) (ratio : Rat) (t : ProbingTable Rat) :
    (((G.rowScaled d).row k).filter fun c => labels.get c.column = .coarse &&
        decide (isNonnegative (diagonal'.get k) ≠ isNonnegative c.value)).foldl
          (fun t c => deposit t c.column (c.value * (d i / d k * ratio))) (t.mapValues (d i * ·)) =
      (((G.row k).filter fun c => labels.get c.column = .coarse &&
        decide (isNonnegative (diagonal.get k) ≠ isNonnegative c.value)).foldl
          (fun t c => deposit t c.column (c.value * ratio)) t).mapValues (d i * ·) := by
  have hfilter : (fun c : Connection Rat n => decide (labels.get c.column = .coarse) &&
      decide (isNonnegative (diagonal'.get k) ≠ isNonnegative c.value)) ∘ Connection.scaled (d k) =
        fun c => decide (labels.get c.column = .coarse) &&
          decide (isNonnegative (diagonal.get k) ≠ isNonnegative c.value) :=
    funext fun c => congrArg (decide (labels.get c.column = .coarse) && ·)
      (opposes_rowScaled hdiagonal (hd k) c.value)
  rw [StrengthGraph.row_rowScaled, List.filter_map, List.foldl_map, hfilter]
  refine List.foldl_hom _ fun t c => ?_
  rw [← deposit_mapValues, ← exchange_factor (hd k).ne' (d i) c.value ratio]
  rfl

/-- What a neighbour hands on has the factor of the row that it is handed to. -/
theorem distribute_rowScaled {i k : Fin n} {x : Rat} {g : Gathered Rat Rat}
    (hguard : exceedsGuard (sharedSum (G.rowScaled d) labels diagonal' g.table i k) =
      exceedsGuard (sharedSum G labels diagonal g.table i k)) :
    distribute (G.rowScaled d) labels diagonal' i k (d i * x) (g.scaled (d i)) =
      (distribute G labels diagonal i k x g).scaled (d i) := by
  have hsum : sharedSum (G.rowScaled d) labels diagonal' (g.scaled (d i)).table i k =
      d k * sharedSum G labels diagonal g.table i k :=
    sharedSum_rowScaled hd hdiagonal (ProbingTable.contains_mapValues (d i * ·) g.table) i k
  rw [sharedSum_rowScaled hd hdiagonal fun _ => rfl] at hguard
  have hratio := guardedDiv_scaled (d i) x hguard
  unfold distribute
  simp only [hsum, hratio, backEntry_rowScaled]
  generalize (if divisionGuard < Arith.magnitude (sharedSum G labels diagonal g.table i k) then
    x / sharedSum G labels diagonal g.table i k else 0) = ratio
  have hreturned : (if decide (isNonnegative (diagonal'.get k) ≠
        isNonnegative (d k * backEntry G i k)) = true then
      d i * g.returned + d k * backEntry G i k * (d i / d k * ratio) else d i * g.returned) =
      d i * if decide (isNonnegative (diagonal.get k) ≠ isNonnegative (backEntry G i k)) = true then
        g.returned + backEntry G i k * ratio else g.returned := by
    rw [opposes_rowScaled hdiagonal (hd k), exchange_factor (hd k).ne', mul_ite, mul_add]
  exact congrArg₂ (fun t returned => (⟨t, returned, d i * g.lumped⟩ : Gathered Rat Rat))
    (foldl_deposit_rowScaled hd hdiagonal i k ratio g.table) hreturned

/-- The amounts after an entry of a scaled row. -/
theorem gatherEntry_rowScaled {i : Fin n} {g : Gathered Rat Rat} {c : Connection Rat n}
    (hguard : c.strong = true ∧ labels.get c.column = .fine →
      exceedsGuard (sharedSum (G.rowScaled d) labels diagonal' g.table i c.column) =
        exceedsGuard (sharedSum G labels diagonal g.table i c.column)) :
    gatherEntry (G.rowScaled d) labels diagonal' i (g.scaled (d i)) (c.scaled (d i)) =
      (gatherEntry G labels diagonal i g c).scaled (d i) := by
  have hhanded : (if c.strong = true ∧ labels.get c.column = .fine then
        distribute (G.rowScaled d) labels diagonal' i c.column (d i * c.value) (g.scaled (d i))
      else g.scaled (d i)) =
      (if c.strong = true ∧ labels.get c.column = .fine then
        distribute G labels diagonal i c.column c.value g else g).scaled (d i) := by
    split_ifs with hfine
    · exact distribute_rowScaled hd hdiagonal (hguard hfine)
    · rfl
  rw [gatherEntry_eq_absorb, gatherEntry_eq_absorb, ← absorb_scaled]
  exact congrArg (absorb labels (c.scaled (d i))) hhanded

/-- Entries that test against the guard as before leave the amounts that they left before. -/
theorem foldl_gatherEntry_rowScaled {i : Fin n} {t : ProbingTable Rat}
    {items : List (Connection Rat n)}
    (hguard : ∀ c ∈ items, c.strong = true ∧ labels.get c.column = .fine →
      exceedsGuard (sharedSum (G.rowScaled d) labels diagonal' t i c.column) =
        exceedsGuard (sharedSum G labels diagonal t i c.column))
    {g : Gathered Rat Rat} (hg : t.SameKeys g.table) :
    (items.map (Connection.scaled (d i))).foldl (gatherEntry (G.rowScaled d) labels diagonal' i)
        (g.scaled (d i)) =
      (items.foldl (gatherEntry G labels diagonal i) g).scaled (d i) := by
  induction items generalizing g with
  | nil => rfl
  | cons c items ih =>
    -- the sums depend on the keys, which no entry changes
    have hsum (G : StrengthGraph Rat n) (diagonal : Vector Rat n) :
        sharedSum G labels diagonal g.table i c.column =
          sharedSum G labels diagonal t i c.column := by
      simp only [sharedSum, hg.contains_eq]
    have hfirst : gatherEntry (G.rowScaled d) labels diagonal' i (g.scaled (d i)) (c.scaled (d i)) =
        (gatherEntry G labels diagonal i g c).scaled (d i) := by
      refine gatherEntry_rowScaled hd hdiagonal fun hfine => ?_
      rw [hsum, hsum]
      exact hguard c List.mem_cons_self hfine
    rw [List.map_cons, List.foldl_cons, List.foldl_cons, hfirst]
    exact ih (fun c' hc' => hguard c' (List.mem_cons_of_mem c hc'))
      (hg.trans (sameKeys_gatherEntry G labels diagonal i g c))

/-- A scaled row gathers the amounts of the row multiplied by its factor. -/
theorem gather_rowScaled {i : Fin n} {t : ProbingTable Rat} (hblank : t.IsBlank 0)
    (hguard : ∀ c ∈ (G.row i).filter (·.column ≠ i), c.strong = true ∧ labels.get c.column = .fine →
      exceedsGuard (sharedSum (G.rowScaled d) labels diagonal' t i c.column) =
        exceedsGuard (sharedSum G labels diagonal t i c.column)) :
    gather (G.rowScaled d) labels diagonal' i t = (gather G labels diagonal i t).scaled (d i) := by
  -- a blank table is its own multiple, and all else starts at zero
  have htable : t.mapValues (d i * ·) = t :=
    ProbingTable.mapValues_eq_self fun slot => by rw [hblank slot, mul_zero]
  have hstart : (⟨t, 0, 0⟩ : Gathered Rat Rat).scaled (d i) = ⟨t, 0, 0⟩ := by
    rw [Gathered.scaled, htable, mul_zero]
  have hfold := foldl_gatherEntry_rowScaled hd hdiagonal hguard (g := ⟨t, 0, 0⟩) (.refl t)
  rw [hstart] at hfold
  rw [gather, StrengthGraph.row_rowScaled, List.filter_map]
  exact hfold

end Gather

/-! ## Rows -/

section Rows

variable (G : StrengthGraph Rat n) (labels : Vector Label n) (diagonal : Vector Rat n)

/-- The denominator of the weights of row `i`. -/
def gatheredDenominator (t : ProbingTable Rat) (i : Fin n) : Rat :=
  let g := gather G labels diagonal i t
  g.lumped + g.returned + diagonal.get i

/-- The outcomes of the tests against the guard in row `i`: of the denominator, and of the sums of
strong fine neighbours.  The table holds the reached points. -/
def guardTests (t : ProbingTable Rat) (i : Fin n) : List Bool :=
  exceedsGuard (gatheredDenominator G labels diagonal t i) ::
    (((G.row i).filter (·.column ≠ i)).filter fun c =>
      c.strong = true ∧ labels.get c.column = .fine).map fun c =>
        exceedsGuard (sharedSum G labels diagonal t i c.column)

variable {G labels diagonal} {diagonal' : Vector Rat n} (hd : ∀ i, 0 < d i)
  (hdiagonal : ∀ i, diagonal'.get i = d i * diagonal.get i) {i : Fin n} {t : ProbingTable Rat}

theorem of_guardTests_eq
    (h : guardTests (G.rowScaled d) labels diagonal' t i = guardTests G labels diagonal t i) :
    exceedsGuard (gatheredDenominator (G.rowScaled d) labels diagonal' t i) =
        exceedsGuard (gatheredDenominator G labels diagonal t i) ∧
      ∀ c ∈ (G.row i).filter (·.column ≠ i), c.strong = true ∧ labels.get c.column = .fine →
        exceedsGuard (sharedSum (G.rowScaled d) labels diagonal' t i c.column) =
          exceedsGuard (sharedSum G labels diagonal t i c.column) := by
  obtain ⟨hdenominator, hsums⟩ := List.cons.inj h
  rw [StrengthGraph.row_rowScaled, List.filter_map, List.filter_map, List.map_map] at hsums
  exact ⟨hdenominator, fun c hc hfine =>
    List.map_inj_left.mp hsums c (List.mem_filter.mpr ⟨hc, decide_eq_true hfine⟩)⟩

include hd hdiagonal

/-- The factor of the row is divided out at last. -/
theorem weights_rowScaled (hblank : t.IsBlank 0)
    (h : guardTests (G.rowScaled d) labels diagonal' t i = guardTests G labels diagonal t i) :
    weights (G.rowScaled d) labels diagonal' i t = weights G labels diagonal i t := by
  obtain ⟨hdenominator, hsums⟩ := of_guardTests_eq h
  have hgather := gather_rowScaled hd hdiagonal hblank hsums
  have hscaled : gatheredDenominator (G.rowScaled d) labels diagonal' t i =
      d i * gatheredDenominator G labels diagonal t i := by
    rw [gatheredDenominator, hgather, hdiagonal, gatheredDenominator, mul_add, mul_add]
    rfl
  rw [hscaled] at hdenominator
  have hfactor : ((gather G labels diagonal i t).scaled (d i)).factor (diagonal'.get i) =
      1 / d i * (gather G labels diagonal i t).factor (diagonal.get i) := by
    have hquotient := guardedDiv_scaled 1 (-1) hdenominator
    rw [← hscaled, one_mul, gatheredDenominator, hgather] at hquotient
    exact hquotient
  unfold weights
  rw [hgather]
  dsimp only
  rw [hfactor, Gathered.scaled, ProbingTable.sortedEntries_mapValues, List.filterMap_map]
  apply List.filterMap_congr
  rintro ⟨k, x⟩ _
  have hcancel : 1 / d i * (gather G labels diagonal i t).factor (diagonal.get i) * (d i * x) =
      (gather G labels diagonal i t).factor (diagonal.get i) * x := by
    have hne := (hd i).ne'
    field_simp
  exact congrArg (fun y => (columnOf? n k).map fun column => (⟨column, y⟩ : Entry n Rat)) hcancel

/-- A scaled row has the weights of the row, if all tests come out the same. -/
theorem row_rowScaled {firstOnly : Bool} {capacity : Int}
    (hguard : labels.get i ≠ .coarse → ∀ t, reachTable G labels firstOnly capacity 0 i =
        (.ok t : Except (Fault R) (ProbingTable Rat)) →
      guardTests (G.rowScaled d) labels diagonal' t i = guardTests G labels diagonal t i) :
    (row (G.rowScaled d) labels diagonal' firstOnly capacity i :
      Except (Fault R) (List (Entry n Rat))) = row G labels diagonal firstOnly capacity i := by
  unfold row
  split_ifs with hi
  · rfl
  rw [reachTable_rowScaled]
  refine bind_congr_of_ok fun t ht => ?_
  obtain ⟨-, -, hblank⟩ := of_reachTable_eq_ok ht
  exact congrArg Except.ok (weights_rowScaled hd hdiagonal hblank (hguard hi t ht))

/-- Extended interpolation of a scaled operator gives the prolongator of the operator, or fails as
it does.  Tests against the guard matter only if there is a prolongator. -/
theorem prolongator_rowScaled {firstOnly : Bool} {given : Option Int}
    (hguard : ∀ buffer, prolongator G labels diagonal firstOnly given =
        (.ok buffer : Except (Fault R) (RowBuffer Rat n)) →
      ∀ i, labels.get i ≠ .coarse →
        ∀ t, reachTable G labels firstOnly (chosenCapacity G labels firstOnly given) 0 i =
            (.ok t : Except (Fault R) (ProbingTable Rat)) →
          guardTests (G.rowScaled d) labels diagonal' t i = guardTests G labels diagonal t i) :
    (prolongator (G.rowScaled d) labels diagonal' firstOnly given :
      Except (Fault R) (RowBuffer Rat n)) = prolongator G labels diagonal firstOnly given := by
  have hsame := rowSizes_rowScaled (R := R) (d := d) G labels firstOnly given .full
  -- the lengths decide for both operators whether there is a prolongator
  cases hsizes : (rowSizes G labels firstOnly given .full : Except (Fault R) (List Nat)) with
  | error fault =>
    rw [hsizes] at hsame
    rw [prolongator, prolongator, hsame, hsizes]
    show (.error fault : Except (Fault R) (RowBuffer Rat n)) = .error fault
    rfl
  | ok sizes =>
    obtain ⟨buffer, hbuffer⟩ := exists_prolongator_of_rowSizes_eq_ok diagonal hsizes
    obtain ⟨buffer', hbuffer'⟩ := exists_prolongator_of_rowSizes_eq_ok diagonal'
      (hsame.trans hsizes)
    obtain ⟨rows, hrows, rfl⟩ := exists_rows_of_prolongator_eq_ok hbuffer
    obtain ⟨rows', hrows', rfl⟩ := exists_rows_of_prolongator_eq_ok hbuffer'
    have heq : rows' = rows := by
      funext i
      have hrow := row_rowScaled hd hdiagonal (hguard _ hbuffer i)
      rw [hrows i, ← chosenCapacity_rowScaled (d := d), hrows' i] at hrow
      exact Except.ok.inj hrow
    rw [hbuffer, hbuffer', heq]

end Rows

end Extended

end Multigrid
