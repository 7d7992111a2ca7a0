import Multigrid.Hierarchy.Prolongator

/-!
# Hierarchies of levels

A hierarchy is a list of levels that is never empty.  Every level but the last one carries the
operators that lead to the next level, whose own operator is the Galerkin product of the three.  A
hierarchy is extended by one level at a time; without a coarse point, or without a fine one, it
stays as long as it is.

## Main definitions

* `SparseMatrix.coarsened`: the coarse operator
* `SparseMatrix.galerkin`: the restriction and the coarse operator
* `Coarsening`, `Level`, `Hierarchy`: levels and hierarchies
* `Prolongation.settle`: from a prolongator to the next level
* `Hierarchy.extend`: one more level
* `Hierarchy.attempt`: an extension that keeps the hierarchy if it fails
-/

namespace Multigrid

variable {S V W : Type}

/-- The coarse operator of a restriction and a prolongator: the product of the three, taken from the
left, with its rows in order of columns. -/
def SparseMatrix.coarsened {n k : Nat} [Storage S V W] [Mul S] (A : SparseMatrix S n n)
    (R : SparseMatrix S k n) (P : SparseMatrix S n k) : SparseMatrix S k k :=
  ((R.mul A).mul P).sorted

/-- The restriction, which is the transpose of the prolongator, and the coarse operator. -/
def SparseMatrix.galerkin {n k : Nat} [Storage S V W] [Mul S] (A : SparseMatrix S n n)
    (P : SparseMatrix S n k) : SparseMatrix S k n × SparseMatrix S k k :=
  let R := P.transpose
  (R, A.coarsened R P)

/-- What leads from a level with `n` points to the next one. -/
structure Coarsening (V : Type) (n : Nat) where
  /-- The number of points of the next level. -/
  coarseSize : Nat
  /-- One for every coarse point, zero for every other. -/
  splitting : Vector Nat n
  /-- The prolongator. -/
  prolongator : SparseMatrix V n coarseSize
  /-- The restriction. -/
  restriction : SparseMatrix V coarseSize n

/-- A level. -/
structure Level (V : Type) where
  /-- The number of points. -/
  size : Nat
  /-- The operator. -/
  operator : SparseMatrix V size size
  /-- The part of the positions that hold a stored entry. -/
  density : Float
  /-- The report of the last attempt to coarsen the level. -/
  report : Option LevelReport := none
  /-- What leads to the next level, if there is one. -/
  coarsening : Option (Coarsening V size) := none

/-- The level of an operator, which has at least one row. -/
def Level.ofOperator {n : Nat} (A : SparseMatrix V n n) : Except (Fault W) (Level V) :=
  if n = 0 then .error .emptyOperator
  else .ok
    { size := n
      operator := A
      density := Float.ofNat A.entryCount / Float.ofNat (n * n) }

/-- The levels from the finest to the coarsest one. -/
structure Hierarchy (V : Type) where
  /-- All levels but the coarsest one. -/
  upper : List (Level V)
  /-- The coarsest level. -/
  last : Level V

namespace Hierarchy

/-- All levels, the finest one first. -/
def levels (h : Hierarchy V) : List (Level V) := h.upper ++ [h.last]

/-- The number of levels. -/
def count (h : Hierarchy V) : Nat := h.upper.length + 1

/-- The hierarchy of a single level. -/
def ofOperator {n : Nat} (A : SparseMatrix V n n) : Except (Fault W) (Hierarchy V) :=
  return ⟨[], ← Level.ofOperator A⟩

/-- The hierarchy with a report on its last level. -/
def withReport (h : Hierarchy V) (report : LevelReport) : Hierarchy V :=
  { h with last := { h.last with report := some report } }

end Hierarchy

section Extension

variable [Arith V] [Arith W] [Storage V V W]

/-- Prints the summary of a report, if it is asked for. -/
def printSummary (p : Parameters W) (report : LevelReport) : Setup Float (Fault W) Unit := do
  if p.report then
    Setup.print (← Setup.ofResult (report.summary (.text "PMIS") ""))

/-- Goes on from a prolongator of the operator `A` to the next level, unless no point is coarse or
all of them are.  The report is completed by the time of the product, also if `A` turns out not to
fit. -/
def Prolongation.settle {n : Nat} (q : Prolongation V n)
    (A : Except (Fault W) (SparseMatrix V n n)) (p : Parameters W) (report : LevelReport) :
    StateM (Session Float)
      (LevelReport × Except (Fault W) (Option (Coarsening V n × Level V))) := do
  let coarseSize := q.splitting.coarseCount
  if coarseSize = 0 ∨ n ≤ coarseSize then
    return (report, (← (printSummary p report).run).map fun _ => none)
  else
    let product ← (Setup.timed "galerkin" (Setup.ofResult (A.map (·.galerkin q.matrix)))).run
    let report := { report with timings := (← get).timings }
    let next : Setup Float (Fault W) (Coarsening V n × Level V) := do
      let (R, coarse) ← Setup.ofResult product
      printSummary p report
      return (⟨coarseSize, q.splitting.indicator, q.matrix, R⟩,
        ← Setup.ofResult (Level.ofOperator coarse))
    return (report, (← next.run).map some)

namespace Hierarchy

/-- Extends a hierarchy by one level.  The flag says whether the last level could be coarsened; if
it could not, a report is all that is added. -/
def extend (h : Hierarchy V) (p : Parameters W) :
    Setup Float (Fault W) (Bool × Hierarchy V) := do
  let A := h.last.operator
  let (prolongation, report) ← prolongate A p (.integer h.upper.length)
  let (report, outcome) ← prolongation.settle (.ok A) p report
  match ← Setup.ofResult outcome with
  | none => return (false, h.withReport report)
  | some (coarsening, next) =>
    let last := { h.last with report := some report, coarsening := some coarsening }
    return (true, ⟨h.upper ++ [last], next⟩)

/-- Extends a hierarchy by one level with options that are yet to be checked.  The hierarchy stays
as it is if that fails. -/
def attempt (h : Hierarchy V) (options : Except (Fault W) (Options W)) :
    StateM (Session Float) (Except (Fault W) Bool × Hierarchy V) := do
  let extension : Setup Float (Fault W) (Bool × Hierarchy V) := do
    h.extend (← Setup.ofResult (options >>= Options.resolve))
  match ← extension.run with
  | .ok (extended, h) => return (.ok extended, h)
  | .error fault => return (.error fault, h)

end Hierarchy

end Extension

end Multigrid
