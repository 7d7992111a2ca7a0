import Multigrid.Sparse.Compressed
import Multigrid.Sparse.RowBuffer
import Multigrid.Splitting.Label

/-!
# Columns of a prolongator

A prolongator is written with its columns numbered like the rows, every column being a coarse
point.  Its final columns number the coarse points consecutively, or as a caller says.

## Main definitions

* `coarseNumbers`: the consecutive numbers of coarse points
* `coarseColumns`: a prolongator with consecutively numbered coarse points
* `RowBuffer.named`: a prolongator with columns named by a caller
-/

namespace Multigrid

variable {V R : Type} {n : Nat}

/-- The column of every coarse point: the number of coarse points before it. -/
def coarseNumbers (labels : Vector Label n) : Vector Nat n :=
  let numbers := (consecutiveNumbers (coarseFlags labels).toList).1
  Vector.ofFn fun i => numbers.getD i 0

/-- The rows written into a buffer, with the coarse points numbered consecutively. -/
def coarseColumns (labels : Vector Label n) (buffer : RowBuffer V n) :
    SparseMatrix V n (coarseCount labels) :=
  (buffer.toMatrix n).renumber (coarseNumbers labels) (coarseCount labels)

/-- The compressed form of the rows written into a buffer, with column `j` named by item `j` of
`names`. -/
def RowBuffer.named (buffer : RowBuffer V n) (names : Array Int) : Compressed V :=
  let entries := buffer.slots.toList.filterMap id
  let columns := entries.map fun e => (e.column.val : Int)
  Compressed.withColumnsNamed ⟨buffer.pointer, columns, entries.map Entry.value⟩ names

end Multigrid
