import Multigrid.Session
import Multigrid.Sparse.Compressed

/-!
# Matrices from other forms

An operator may come as compressed rows, as compressed columns, as a list of triplets or as a
table of all its values.  All but the first are converted, with a warning.  Triplets that share a
position are summed in their order and every row is put in order of columns; a table contributes
its values that are not zero.  A list of values that is not divided into rows is converted as a
single row, but it cannot stand for an operator.

## Main definitions

* `SizedMatrix`, `SquareMatrix`: matrices together with their size
* `MatrixSource`: the forms
* `MatrixSource.toMatrix?`: the matrix of a form
* `MatrixSource.accept`, `MatrixSource.acceptSquare`: conversion, with the checks that an operator
  has to pass
-/

namespace Multigrid

/-- A matrix together with its size. -/
structure SizedMatrix (S : Type) where
  /-- The number of rows. -/
  rowCount : Nat
  /-- The number of columns. -/
  columnCount : Nat
  /-- The matrix. -/
  matrix : SparseMatrix S rowCount columnCount

/-- A square matrix together with its size. -/
structure SquareMatrix (S : Type) where
  /-- The number of rows and of columns. -/
  size : Nat
  /-- The matrix. -/
  matrix : SparseMatrix S size size

/-- The matrix as a square one, if it is. -/
def SizedMatrix.square? {S : Type} : SizedMatrix S → Option (SquareMatrix S)
  | ⟨m, n, A⟩ => if h : n = m then some ⟨m, h ▸ A⟩ else none

/-- A stored value with its position. -/
structure Triplet (m n : Nat) (S : Type) where
  /-- The row. -/
  row : Fin m
  /-- The column. -/
  column : Fin n
  /-- The value. -/
  value : S

/-- The forms in which a matrix may be given. -/
inductive MatrixSource (S : Type) where
  /-- Compressed rows. -/
  | byRows (A : SizedMatrix S)
  /-- Compressed columns: the rows of the given matrix are the columns of the one that is meant. -/
  | byColumns (A : SizedMatrix S)
  /-- Triplets of a matrix with `m` rows and `n` columns. -/
  | triplets (m n : Nat) (items : List (Triplet m n S))
  /-- All values of a matrix with `m` rows and `n` columns. -/
  | table (m n : Nat) (values : Vector (Vector S n) m)
  /-- A list of `n` values. -/
  | flat (n : Nat) (values : Vector S n)
  /-- Something that is no matrix: a value, or not even that. -/
  | unreadable (isValue : Bool)

namespace MatrixSource

variable {S R : Type}

/-- Triplets whose parts are listed one by one.  The lists are equally long, and every position lies
inside of the matrix. -/
def ofTriplets (m n : Nat) (rows columns : List Int) (values : List S) :
    Except (Fault R) (MatrixSource S) := do
  if rows.length ≠ values.length ∨ columns.length ≠ values.length then throw .unequalLengths
  let triplet? (place : (Int × Int) × S) : Option (Triplet m n S) := do
    return ⟨← columnOf? m place.1.1, ← columnOf? n place.1.2, place.2⟩
  let some items := ((rows.zip columns).zip values).mapM triplet? | throw .tripletOutside
  return triplets m n items

/-- A table of rows, which are equally long. -/
def ofTable (rows : List (List S)) : Except (Fault R) (MatrixSource S) := do
  let n := (rows.head?.map List.length).getD 0
  let some rows := rows.mapM fun row => if row.length = n then spread? n row else none
    | throw .unequalLengths
  return table rows.length n ⟨rows.toArray, rfl⟩

end MatrixSource

section Conversion

variable {S V W : Type} [Storage S V W] {m n : Nat}

/-- The entry `e`, with the entries of its column that follow it added in, before the rest. -/
def sumRun (e : Entry n S) : List (Entry n S) → List (Entry n S)
  | [] => [e]
  | f :: rest =>
    if f.column = e.column then sumRun ⟨e.column, Storage.add e.value f.value⟩ rest
    else e :: sumRun f rest

/-- Adds up entries of equal columns that stand next to each other, in their order. -/
def sumNeighbours : List (Entry n S) → List (Entry n S)
  | [] => []
  | e :: rest => sumRun e rest

/-- The matrix of a list of triplets. -/
def SparseMatrix.ofTriplets (items : List (Triplet m n S)) : SparseMatrix S m n :=
  .ofRows fun i =>
    let row := (items.filter (·.row = i)).map fun t => (⟨t.column, t.value⟩ : Entry n S)
    sumNeighbours (row.mergeSort fun e f => e.column ≤ f.column)

/-- The matrix of the values that are not zero in a table. -/
def SparseMatrix.ofTable (values : Vector (Vector S n) m) : SparseMatrix S m n :=
  .ofRows fun i => ((List.finRange n).map fun j => (⟨j, (values.get i).get j⟩ : Entry n S)).filter
    fun e => !Storage.isZero e.value

namespace MatrixSource

/-- Is the form compressed rows? -/
def isByRows : MatrixSource S → Bool
  | byRows _ => true
  | _ => false

/-- Is the form a list of values without rows? -/
def isFlat : MatrixSource S → Bool
  | flat _ _ => true
  | _ => false

/-- Is the form a table of values? -/
def isTable : MatrixSource S → Bool
  | table _ _ _ => true
  | _ => false

/-- The matrix of a form. -/
def toMatrix? : MatrixSource S → Option (SizedMatrix S)
  | byRows A => some A
  | byColumns A => some ⟨A.columnCount, A.rowCount, A.matrix.transpose⟩
  | triplets m n items => some ⟨m, n, .ofTriplets items⟩
  | table m n values => some ⟨m, n, .ofTable values⟩
  | flat n values => some ⟨1, n, .ofTable #v[values]⟩
  | unreadable _ => none

variable {T R : Type}

/-- The matrix of a form with every row in order of columns.  A form other than compressed rows is
remarked upon. -/
def accept (source : MatrixSource S) (name : String) : Setup T (Fault R) (SizedMatrix S) := do
  let some A := source.toMatrix? | throw (.notConvertible name)
  Setup.warn (if source.isByRows then none else some (.implicitConversion name))
  return ⟨A.rowCount, A.columnCount, A.matrix.sorted⟩

/-- The same for a form that has to be square. -/
def acceptSquare (source : MatrixSource S) (name : String) :
    Setup T (Fault R) (SquareMatrix S) := do
  let A ← source.accept name
  if source.isFlat then throw .notTwoDimensional
  let some A := A.square? | throw .notSquare
  return A

end MatrixSource

end Conversion

end Multigrid
