import Multigrid.Sparse.Matrix
import Multigrid.Sparse.Pointer

/-!
# Compressed storage

Compressed storage keeps the rows of a matrix in one list of columns and one list of values, with a
row pointer over both.  Every matrix has a compressed form; a compressed form is read back if its
parts fit together.

## Main definitions

* `Compressed`: the three parts
* `SparseMatrix.compressed`: the compressed form of a matrix
* `Compressed.check`, `Compressed.checkOrder`: do the parts fit together?
* `Compressed.toMatrix`: the matrix of a compressed form
* `Compressed.withOwnColumns`: other numbers for columns that may lie outside of the matrix
* `Compressed.sortedRows`, `Compressed.withoutZeros`: the two normalisations, whatever the columns
  are
-/

namespace Multigrid

/-- A row pointer, and the column and the value of every slot. -/
structure Compressed (α : Type) where
  /-- The row pointer. -/
  pointer : List Int
  /-- The column of every slot. -/
  columns : List Int
  /-- The value of every slot. -/
  values : List α

variable {α R : Type} {m n : Nat}

/-- The column of a number, if it is one of `n` columns. -/
def columnOf? (n : Nat) (column : Int) : Option (Fin n) :=
  if h : 0 ≤ column ∧ column.toNat < n then some ⟨column.toNat, h.2⟩ else none

/-- The point that a number stands for among the first `count` of `n` points.  Numbers below zero
count from the end of those. -/
def leadingPoint? (count n : Nat) (column : Int) : Option (Fin n) :=
  (slotAt? count column).bind fun slot => columnOf? n slot

/-- The point that a number stands for among `n` points. -/
def pointOf? (n : Nat) (column : Int) : Option (Fin n) := leadingPoint? n n column

/-- The compressed form of a matrix. -/
def SparseMatrix.compressed (A : SparseMatrix α m n) : Compressed α where
  pointer := runningTotals (A.rowLengths.map Int.ofNat)
  columns := A.entries.map fun e => e.column.val
  values := A.entries.map Entry.value

namespace Compressed

variable (c : Compressed α)

/-- The number of slots in use: those before the end of the pointer. -/
def slotCount : Nat := (c.pointer.getLastD 0).toNat

/-- The pointer of `rows` rows has a position more, starts at zero and ends at most at the number of
slots, and there are as many columns as values. -/
def check (rows : Nat) : Except (Fault R) Unit :=
  if c.pointer.length = rows + 1 ∧ c.pointer.head? = some 0 ∧ 0 ≤ c.pointer.getLastD 0 ∧
      c.slotCount ≤ c.columns.length ∧ c.columns.length = c.values.length then .ok ()
  else .error .malformedPointer

/-- Does the pointer never decrease? -/
def isOrdered : Bool := (gaps c.pointer).all (0 ≤ ·)

/-- The pointer does not decrease. -/
def checkOrder : Except (Fault R) Unit :=
  if c.isOrdered then .ok () else .error .malformedPointer

/-- The items of a list that has one for every slot, row by row. -/
def byRow {β : Type} (items : List β) : List (List β) :=
  let items := (items.take c.slotCount).toArray
  List.zipWith (fun start stop : Int => (items.extract start.toNat stop.toNat).toList)
    c.pointer c.pointer.tail

/-- The rows with their columns and values. -/
def rows : List (List (Int × α)) := c.byRow (c.columns.zip c.values)

/-- The rows from number `m` on are empty. -/
def checkRows (m : Nat) : Except (Fault R) Unit :=
  if (gaps c.pointer).drop m |>.any (0 < ·) then .error .slotOutOfRange else .ok ()

/-- The matrix with `m` rows and `n` columns whose columns are found by `column?`.  A row that is
missing is empty, and a row too many has to be. -/
def toMatrixBy (m n : Nat) (column? : Int → Option (Fin n)) :
    Except (Fault R) (SparseMatrix α m n) := do
  c.checkRows m
  let some rows := c.rows.mapM (·.mapM fun (column, value) =>
    (column? column).map fun column => (⟨column, value⟩ : Entry n α)) | throw .columnOutOfRange
  let rows := rows.toArray
  return .ofRows fun i => rows.getD i []

/-- The matrix of a compressed form.  The pointer runs from zero to at most the number of slots
without decreasing, there are as many columns as values, and every column is one of `n`.  Slots
beyond the end of the pointer do not belong to the matrix. -/
def toMatrix (m n : Nat) : Except (Fault R) (SparseMatrix α m n) := do
  c.check m
  c.checkOrder
  c.toMatrixBy m n (columnOf? n)

/-- The same form where every slot whose column is none of `n` has a column of its own: the one
that follows the `n` columns by the number of the slot. -/
def withOwnColumns (n : Nat) : Compressed α :=
  { c with columns := c.columns.zipIdx.map fun (column, slot) =>
      if 0 ≤ column ∧ column < n then column else n + slot }

/-- The same form with every column replaced by its name. -/
def withColumnsNamed (names : Array Int) : Compressed α :=
  { c with columns := c.columns.map fun column => names.getD column.toNat column }

/-- The same form with every value mapped. -/
def map {β : Type} (f : α → β) : Compressed β := { c with values := c.values.map f }

/-- The same form without the slots that are not in use. -/
def pruned : Compressed α :=
  { c with columns := c.columns.take c.slotCount, values := c.values.take c.slotCount }

/-- The compressed form of rows. -/
def ofRows (rows : List (List (Int × α))) : Compressed α where
  pointer := runningTotals (rows.map fun row => (row.length : Int))
  columns := rows.flatten.map Prod.fst
  values := rows.flatten.map Prod.snd

/-- Is every row in order of columns? -/
def isSorted : Bool :=
  (c.byRow c.columns).all fun row => (row.zip row.tail).all fun (a, b) => a ≤ b

/-- The same form with every row in order of columns, whatever the columns are. -/
def sortedRows : Except (Fault R) (Compressed α) :=
  if c.isSorted then .ok c.pruned
  else if c.isOrdered then .ok (ofRows (c.rows.map (·.mergeSort fun a b => a.1 ≤ b.1)))
  else .error .unsortable

/-- The entries that are not zero. -/
def withoutZeros {V W : Type} [Storage α V W] : Compressed α :=
  ofRows (c.rows.map (·.filter fun (_, value) => !Storage.isZero value))

end Compressed

end Multigrid
