import Multigrid.Sparse.Source

/-!
# Stored matrices

A matrix may be stored by rows or by columns.  The kernels look at neither: they read the stored
lines of an operator with `n` points as its `n` rows, and they look up the diagonal of the matrix
that is meant.  For a matrix that is not square there may be too few lines, too many, or too short
a diagonal, which matters only where a missing part is looked at.

## Main definitions

* `Extent`: how much of an operator there is
* `StoredMatrix`: a compressed form with its size and its direction
* `StoredMatrix.operator`: the rows that the kernels read
* `StoredMatrix.toSource`, `StoredMatrix.square`: the matrix that is meant
-/

namespace Multigrid

/-- How much there is of an operator with a number of points. -/
structure Extent where
  /-- The number of stored rows. -/
  rows : Nat
  /-- The length of the diagonal. -/
  diagonal : Nat

/-- All there is of a square operator with `n` points. -/
def Extent.full (n : Nat) : Extent := ⟨n, n⟩

/-- A matrix that is stored line by line. -/
structure StoredMatrix (S : Type) where
  /-- The number of rows. -/
  rowCount : Nat
  /-- The number of columns. -/
  columnCount : Nat
  /-- Are the lines columns? -/
  byColumns : Bool
  /-- The lines. -/
  parts : Compressed S

namespace StoredMatrix

variable {S R : Type} (A : StoredMatrix S)

/-- The number of lines. -/
def lineCount : Nat := if A.byColumns then A.columnCount else A.rowCount

/-- How much there is of the operator whose points are the rows of the matrix. -/
def extent : Extent := ⟨A.lineCount, min A.rowCount A.columnCount⟩

/-- The parts fit together and to the number of lines. -/
def check : Except (Fault R) Unit := A.parts.check A.lineCount

/-- The operator whose points are the rows of the matrix, with the stored lines as its rows.
Columns below zero count from the end. -/
def operator : Except (Fault R) (SparseMatrix S A.rowCount A.rowCount) := do
  A.parts.checkOrder
  A.parts.toMatrixBy A.rowCount A.rowCount (pointOf? A.rowCount)

/-- The part of the positions of a square matrix with as many rows that hold a stored entry. -/
def density : Float :=
  Float.ofNat A.parts.slotCount / Float.ofNat (A.rowCount * A.rowCount)

/-- The matrix as a form that can be converted. -/
def toSource : Except (Fault R) (MatrixSource S) := do
  let lines ← A.parts.toMatrix A.lineCount (if A.byColumns then A.rowCount else A.columnCount)
  return if A.byColumns then .byColumns ⟨_, _, lines⟩ else .byRows ⟨_, _, lines⟩

/-- The matrix that is meant, which has to be square. -/
def square : Except (Fault R) (SparseMatrix S A.rowCount A.rowCount) := do
  if A.rowCount ≠ A.columnCount then throw .unequalLengths
  let lines ← A.parts.toMatrix A.rowCount A.rowCount
  return if A.byColumns then lines.transpose else lines

/-- The same matrix without the entries that are zero. -/
def withoutZeros {V W : Type} [Storage S V W] : StoredMatrix S :=
  { A with parts := A.parts.withoutZeros }

/-- Does the pointer never decrease, and does every slot in use have a column inside? -/
def isRegular : Bool :=
  A.parts.isOrdered && A.parts.pruned.columns.all fun column =>
    (columnOf? (if A.byColumns then A.rowCount else A.columnCount) column).isSome

/-- The same matrix with every line sorted, for lines that are rows.  A square matrix may be asked
for. -/
def sorted (isSquare : Bool) : Except (Fault R) (StoredMatrix S) := do
  if isSquare && A.rowCount != A.columnCount then throw .notSquare
  return { A with parts := ← A.parts.sortedRows }

end StoredMatrix

end Multigrid
