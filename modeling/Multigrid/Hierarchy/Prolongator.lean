import Multigrid.Hierarchy.Parameters
import Multigrid.Hierarchy.Report
import Multigrid.Interpolation.Columns
import Multigrid.Interpolation.Extended
import Multigrid.Sparse.Stored
import Multigrid.Splitting.Rounds

/-!
# Prolongators

The prolongator of a level is found in steps: strong connections and influence weights, the
splitting into coarse and fine points, the interpolation, and the truncation of small weights.
Every step is timed under a label of its own.  A splitting that left points undecided is remarked
upon and used all the same.

The stored lines of any matrix can be read as an operator.  If it is not square, a part of the
operator may be missing when it is interpolated.

## Main definitions

* `Prolongation`: a splitting and the prolongator that belongs to it
* `prolongate`: the prolongator of an operator
* `StoredMatrix.prolongate`: the prolongator of a stored matrix
-/

namespace Multigrid

variable {S V W : Type} {n : Nat}

/-- A splitting and the prolongator from its coarse points. -/
structure Prolongation (V : Type) (n : Nat) where
  /-- The splitting. -/
  splitting : Splitting n
  /-- The prolongator. -/
  matrix : SparseMatrix V n splitting.coarseCount

/-- The rows written into a buffer, with the columns of coarse points numbered consecutively. -/
def Prolongation.ofBuffer (splitting : Splitting n) (buffer : RowBuffer V n) : Prolongation V n :=
  ⟨splitting, coarseColumns splitting.labels buffer⟩

section Steps

variable [Arith V] [Arith W] [Storage V V W]

/-- Interpolation by strongly connected coarse points, for a number of stored rows. -/
def interpolateDirectly (graph : StrengthGraph V n) (labels : Vector Label n) (stored : Nat) :
    Setup Float (Fault W) (RowBuffer V n) := do
  let bands := Direct.bands graph labels
  let sizes ← Setup.timed "interp_nnz" (pure (Direct.rowSizes graph labels))
  Setup.timed "interp_fill" (Setup.ofResult (Direct.fill graph labels stored
    (some (bands.map Band.lower)) (some (bands.map Band.upper))
    (runningTotals (sizes.toList.map Int.ofNat)) n))

/-- Interpolation by coarse points that two strong connections reach, with tables of the given
capacity. -/
def interpolateExtended (graph : StrengthGraph V n) (labels : Vector Label n)
    (diagonal : Vector W n) (extent : Extent) (firstOnly : Bool) (capacity : Int) :
    Setup Float (Fault W) (RowBuffer V n) := do
  let plan (hasDiagonal : Fin n → Bool) : RowPlan n :=
    Extended.plan graph labels (fun i => i < extent.rows) hasDiagonal n
  let sizes ← Setup.timed "interp_nnz" (Setup.ofResult
    (Extended.rowSizes graph labels firstOnly (some capacity) (plan fun _ => true)))
  Setup.timed "interp_fill" (Setup.ofResult
    (Extended.fill graph labels diagonal firstOnly (some capacity)
      (plan fun i => i < extent.diagonal) (runningTotals (sizes.map Int.ofNat)) n))

/-- Interpolation by the chosen scheme, with the diagnostics of the scheme. -/
def interpolate (graph : StrengthGraph V n) (labels : Vector Label n) (diagonal : Vector W n)
    (extent : Extent) (p : Parameters W) :
    Setup Float (Fault W) (RowBuffer V n × Labelled Datum) :=
  match p.scheme with
  | .direct => do return (← interpolateDirectly graph labels extent.rows, [])
  | .extended => do
    let capacity := Extended.chosenCapacity graph labels p.firstOnly (← Setup.ofResult p.capacity)
    let buffer ← interpolateExtended graph labels diagonal extent p.firstOnly capacity
    return (buffer, [("hash_capacity", .integer capacity)])

/-- Truncation of a prolongator, with the number of entries that it had before.  A ratio that is not
above zero truncates nothing. -/
def truncateIfAsked {k : Nat} (P : SparseMatrix V n k) (ratio : W) :
    Setup Float (Fault W) (SparseMatrix V n k × Option Int) := do
  if 0 < ratio then
    let truncated ← Setup.timed "truncate" (Setup.ofResult (Truncation.truncated P ratio n))
    return (truncated, some P.entryCount)
  else
    return (P, none)

end Steps

variable [Arith V] [Arith W] [Storage S V W] [Storage V V W]

/-- The prolongator of an operator of which there is as much as `extent` says, and the report on it
as level number `level`. -/
def prolongateWithin (A : SparseMatrix S n n) (extent : Extent) (p : Parameters W)
    (level : Datum) : Setup Float (Fault W) (Prolongation V n × LevelReport) := do
  Setup.restartTimings
  let (graph, weights) ← Setup.timed "strength" (Setup.ofResult
    ((A.map Storage.value).measured p.tolerance p.influenceStart))
  let splitting ← Setup.timed "coarsen" (do
    let splitting ← Setup.ofResult (graph.split weights p.maxRounds)
    Setup.warn splitting.warning
    return splitting)
  let diagonal := A.diagonal.map Storage.widen
  let (buffer, extra) ← interpolate graph splitting.labels diagonal extent p
  let full := Prolongation.ofBuffer splitting buffer
  let (matrix, untruncated) ← truncateIfAsked full.matrix p.truncation
  let report : LevelReport :=
    { level, fineSize := .integer n, timings := (← Setup.timings), extra }
  let ratio := LevelReport.coarseningRatio n splitting.coarseCount
  let report := report.complete ratio splitting.labels splitting.rounds splitting.converged
    splitting.coarseCount (matrix.rowLengths.map Int.ofNat) untruncated
  return (⟨splitting, matrix⟩, report)

/-- The prolongator of a square operator, and the report on it as level number `level`. -/
def prolongate (A : SparseMatrix S n n) (p : Parameters W) (level : Datum) :
    Setup Float (Fault W) (Prolongation V n × LevelReport) :=
  prolongateWithin A (.full n) p level

/-- The prolongator of the operator whose rows are the lines of a stored matrix, and the report on
it. -/
def StoredMatrix.prolongate (A : StoredMatrix S) (p : Parameters W) (level : Datum) :
    Setup Float (Fault W) (Prolongation V A.rowCount × LevelReport) := do
  prolongateWithin (← Setup.ofResult A.operator) A.extent p level

end Multigrid
