import Multigrid.Hierarchy.Level

/-!
# Trials

A trial starts from a single operand and attempts to extend it by one level at a time.  The operand
may be a matrix that is not square: its stored lines may well have a prolongator, but there is no
product, so that all that is left is the report.  A table of values has no stored lines, and no
attempt on it succeeds.  An attempt that fails earlier leaves everything as it is.

## Main definitions

* `Trial`: an operand and what was built on it
* `Trial.ofStored`, `Trial.ofTable`: trials to start with
* `Trial.attempt`, `Trial.attemptAll`: attempts to add a level
-/

namespace Multigrid

/-- An operand and what was built on it. -/
inductive Trial (S V : Type) where
  /-- A table with a number of rows. -/
  | table (rowCount : Nat)
  /-- A stored matrix, with the report of the last attempt that found a prolongator. -/
  | stored (A : StoredMatrix S) (report : Option LevelReport)
  /-- Several levels. -/
  | built (h : Hierarchy V)

namespace Trial

variable {S V W R α : Type}

/-- The trial of a stored matrix, which has at least one row. -/
def ofStored (A : StoredMatrix S) : Except (Fault R) (Trial S V) :=
  if A.rowCount = 0 then .error .emptyOperator else .ok (stored A none)

/-- The trial of a table with at least one row. -/
def ofTable (rowCount : Nat) : Except (Fault R) (Trial S V) :=
  if rowCount = 0 then .error .emptyOperator else .ok (table rowCount)

/-- The number of points of every level. -/
def sizes : Trial S V → List Nat
  | table rowCount => [rowCount]
  | stored A _ => [A.rowCount]
  | built h => h.levels.map Level.size

/-- The density of the operand.  For a table a value counts for every row. -/
def density : Trial S V → Float
  | table rowCount => Float.ofNat rowCount / Float.ofNat (rowCount * rowCount)
  | stored A _ => A.density
  | built h => (h.levels.head?.map Level.density).getD 0

variable [Arith V] [Arith W] [Storage S V W] [Storage V V W]

/-- Attempts to add a level to a stored matrix. -/
def attemptStored (A : StoredMatrix S) (report : Option LevelReport)
    (options : Except (Fault W) (Options W)) :
    StateM (Session Float) (Except (Fault W) Bool × Trial S V) := do
  let prolongation : Setup Float (Fault W)
      (Parameters W × Prolongation V A.rowCount × LevelReport) := do
    let p ← Setup.ofResult (options >>= Options.resolve)
    return (p, ← A.prolongate p (.integer 0))
  match ← prolongation.run with
  | .error fault => return (.error fault, stored A report)
  | .ok (p, prolongation, report) =>
    let operator := A.square.map fun matrix => (matrix.map Storage.value : SparseMatrix V _ _)
    let (report, outcome) ← prolongation.settle operator p report
    match operator, outcome with
    | .ok operator, .ok (some (coarsening, next)) =>
      let first : Level V :=
        { size := A.rowCount, operator, density := A.density, report := some report
          coarsening := some coarsening }
      return (.ok true, built ⟨[first], next⟩)
    | _, outcome => return (outcome.map Option.isSome, stored A (some report))

/-- Attempts to add a level with options that are yet to be checked.  The flag says whether there is
one more. -/
def attempt (trial : Trial S V) (options : Except (Fault W) (Options W)) :
    StateM (Session Float) (Except (Fault W) Bool × Trial S V) :=
  match trial with
  | table _ => return (options >>= Options.resolve >>= fun _ => .error .notCompressed, trial)
  | stored A report => attemptStored A report options
  | built h => do
    let (result, h) ← h.attempt options
    return (result, built h)

/-- Attempts to add a level once for each of some options.  An attempt is shown to `observe`, with
what it leaves and the text that it printed. -/
def attemptAll (observe : Except (Fault W) Bool → Trial S V → String → α) (trial : Trial S V) :
    List (Except (Fault W) (Options W)) → StateM (Session Float) (List α × Trial S V)
  | [] => return ([], trial)
  | options :: rest => do
    let before := (← get).printed
    let (result, trial) ← trial.attempt options
    let seen := observe result trial ((← get).printed.drop before.length).toString
    let (observations, trial) ← trial.attemptAll observe rest
    return (seen :: observations, trial)

end Trial

end Multigrid
