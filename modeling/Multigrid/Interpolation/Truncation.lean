import Multigrid.Scalar.Storage
import Multigrid.Sparse.Compressed
import Multigrid.Sparse.RowBuffer

/-!
# Truncation

Truncation drops the entries of a row whose magnitude is below a given part of the row's largest
one.  The entries that are kept are scaled by a common factor, so that the row sum stays the same.
If the kept entries cancel out, there is no such factor and they are copied as they are.

The matrices that are meant have fewer than `2 ^ 31` entries, so that the row pointer of a truncated
matrix fits into signed words of 32 bits.

## Main definitions

* `Truncation.threshold`, `Truncation.isKept`: which entries are kept
* `Truncation.scale`: the common factor of a row
* `Truncation.row`: a truncated row
* `Truncation.ofParts`: a compressed form as a matrix to truncate
* `Truncation.fill`: the truncated matrix, written into reserved slots
-/

namespace Multigrid.Truncation

variable {S V W : Type} {m n : Nat} [Arith W] [Storage S V W]

/-- The ratios that truncation admits: from zero up to one. -/
def checkRatio (ratio : W) : Except (Fault W) Unit :=
  if 0 ≤ ratio ∧ ratio ≤ 1 then .ok () else .error (.truncationOutOfRange ratio)

section Row

variable (ratio : W) (entries : List (Entry n S))

/-- The magnitude below which an entry is dropped. -/
def threshold : W :=
  (entries.foldl (fun (most : W) e => Arith.greatest most (Storage.magnitude e.value)) 0) * ratio

/-- Is an entry kept under this threshold? -/
def isKept (threshold : W) (e : Entry n S) : Bool := threshold ≤ Storage.magnitude e.value

/-- The entries that are kept. -/
def kept : List (Entry n S) :=
  let threshold := threshold ratio entries
  entries.filter (isKept threshold)

/-- The sum of the entries. -/
def rowSum : W := entries.foldl (fun (sum : W) e => sum + Storage.widen e.value) 0

/-- The common factor of the entries that are kept. -/
def scale : W :=
  let sum : W := rowSum (kept ratio entries)
  if divisionGuard < Arith.magnitude sum then rowSum entries / sum else 1

/-- The truncated row. -/
def row : List (Entry n S) :=
  let scale := scale ratio entries
  (kept ratio entries).map fun e => ⟨e.column, Storage.narrow (Storage.widen e.value * scale)⟩

end Row

section Matrix

variable (P : SparseMatrix S m n) (ratio : W)

/-- The matrix with `m` rows of a compressed form, as truncation sees it: the columns do not matter,
so every slot has one of its own. -/
def ofParts (P : Compressed S) (m : Nat) :
    Except (Fault W) (SparseMatrix S m P.columns.length) := do
  checkRatio ratio
  P.checkOrder
  (P.withOwnColumns 0).toMatrixBy m P.columns.length (columnOf? _)

/-- The length of every truncated row. -/
def rowSizes : Except (Fault W) (List Nat) := do
  checkRatio ratio
  return (List.finRange m).map fun i => (kept ratio (P.row i)).length

/-- Writes the truncated matrix into the slots of a row pointer, which has to fit the number of
`stored` rows: all `m` of them, unless the matrix is stored by columns. -/
def fill (stored : Nat) (pointer : List Int) : Except (Fault W) (RowBuffer S n) := do
  checkRatio ratio
  let buffer ← RowBuffer.reserve pointer n
  let counts := (List.finRange m).map fun i => (kept ratio (P.row i)).length
  let slots ← compactedSlots (leadingCounts stored counts) pointer (.replicate stored 0)
  let buffer ← buffer.writeAll
    (slots.zip ((List.finRange m).flatMap fun i => row ratio (P.row i)))
  buffer.finish m

/-- The truncated matrix of a number of stored rows. -/
def truncated (stored : Nat) : Except (Fault W) (SparseMatrix S m n) := do
  let sizes ← rowSizes P ratio
  return (← fill P ratio stored (runningTotals (sizes.map Int.ofNat))).toMatrix m

end Matrix

end Multigrid.Truncation
