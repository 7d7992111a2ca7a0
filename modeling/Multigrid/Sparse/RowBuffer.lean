import Multigrid.Sparse.Matrix
import Multigrid.Sparse.Pointer

/-!
# Reserved slots

A builder that knows the length of every row reserves the slots of all rows at once and writes the
rows into them in any order.  A slot holds nothing until it is written.  Positions below zero count
from the end, as long as they stay inside.  A buffer may admit only the leading columns.

## Main definitions

* `RowBuffer`: the reserved slots and the row pointer over them
* `RowBuffer.reserve`, `RowBuffer.write`, `RowBuffer.finish`: the life of a buffer
* `RowBuffer.rowSlots`, `RowBuffer.toMatrix`: the rows that were written
-/

namespace Multigrid

/-- Slots for the entries of rows with `n` columns, and the row pointer that divides them. -/
structure RowBuffer (α : Type) (n : Nat) where
  /-- The row pointer. -/
  pointer : List Int
  /-- The number of columns that are admitted. -/
  width : Nat
  /-- The slots. -/
  slots : Array (Option (Entry n α))

namespace RowBuffer

variable {α R : Type} {n : Nat}

/-- Reserves as many slots as the row pointer ends with, for entries of the first `width` columns.
-/
def reserve (pointer : List Int) (width : Nat) : Except (Fault R) (RowBuffer α n) :=
  match pointer.getLast? with
  | none => .error .slotOutOfRange
  | some total =>
    if total < 0 then .error .malformedPointer
    else .ok ⟨pointer, width, Array.replicate total.toNat none⟩

/-- Writes an entry into a slot. -/
def write (buffer : RowBuffer α n) (position : Int) (entry : Entry n α) :
    Except (Fault R) (RowBuffer α n) :=
  if buffer.width ≤ entry.column then .error .columnOutOfRange
  else match slotAt? buffer.slots.size position with
    | some slot => .ok { buffer with slots := buffer.slots.setIfInBounds slot (some entry) }
    | none => .error .slotOutOfRange

/-- Writes entries into slots, one after the other. -/
def writeAll (buffer : RowBuffer α n) (entries : List (Int × Entry n α)) :
    Except (Fault R) (RowBuffer α n) :=
  entries.foldlM (fun buffer (position, entry) => buffer.write position entry) buffer

/-- Accepts a buffer as a matrix with `rows` rows: its row pointer has one position more and starts
at zero. -/
def finish (buffer : RowBuffer α n) (rows : Nat) : Except (Fault R) (RowBuffer α n) :=
  if buffer.pointer.length = rows + 1 ∧ buffer.pointer.head? = some 0 then .ok buffer
  else .error .malformedPointer

/-- The slots of row `r`. -/
def rowSlots (buffer : RowBuffer α n) (r : Nat) : List (Option (Entry n α)) :=
  let start := (buffer.pointer.getD r 0).toNat
  let stop := (buffer.pointer.getD (r + 1) 0).toNat
  (buffer.slots.extract start stop).toList

/-- The matrix of the written entries. -/
def toMatrix (buffer : RowBuffer α n) (m : Nat) : SparseMatrix α m n :=
  .ofRows fun i => (buffer.rowSlots i).filterMap id

end RowBuffer

end Multigrid
