import Multigrid.Scalar.Storage

/-!
# Sparse matrices

A sparse matrix is a vector of rows, and a row is the list of its stored entries.  The order of a
row is part of the matrix: rows may be unsorted, a column may be stored more than once, and a stored
entry may be zero.  The kernels read the entries exactly as they are stored.

## Main definitions

* `Entry`, `SparseMatrix`: stored entries and matrices
* `SparseMatrix.diagonal`: the diagonal, entries of one position summed
* `SparseMatrix.sorted`, `SparseMatrix.withoutZeros`: the two normalisations
* `SparseMatrix.transpose`, `SparseMatrix.mul`: transpose and product
* `SparseMatrix.renumber`: renaming the columns
-/

namespace Multigrid

/-- A stored entry of a row with `n` columns. -/
structure Entry (n : Nat) (α : Type) where
  /-- The column of the entry. -/
  column : Fin n
  /-- The stored value. -/
  value : α

/-- A matrix with `m` rows and `n` columns, as its rows of stored entries. -/
structure SparseMatrix (α : Type) (m n : Nat) where
  /-- The rows, each in storage order. -/
  rows : Vector (List (Entry n α)) m

namespace SparseMatrix

variable {α β S V W : Type} {k m n : Nat}

/-- The stored entries of row `i`. -/
def row (A : SparseMatrix α m n) (i : Fin m) : List (Entry n α) := A.rows.get i

/-- The matrix whose row `i` is `f i`. -/
def ofRows (f : Fin m → List (Entry n α)) : SparseMatrix α m n := ⟨Vector.ofFn f⟩

@[simp] theorem row_ofRows (f : Fin m → List (Entry n α)) (i : Fin m) : (ofRows f).row i = f i :=
  Vector.getElem_ofFn i.isLt

/-- The same entries with every value mapped. -/
def map (f : α → β) (A : SparseMatrix α m n) : SparseMatrix β m n :=
  ofRows fun i => (A.row i).map fun e => ⟨e.column, f e.value⟩

/-- All stored entries, row after row. -/
def entries (A : SparseMatrix α m n) : List (Entry n α) := A.rows.toList.flatten

/-- The number of stored entries of every row. -/
def rowLengths (A : SparseMatrix α m n) : List Nat := A.rows.toList.map List.length

/-- The number of stored entries. -/
def entryCount (A : SparseMatrix α m n) : Nat := A.entries.length

/-- The diagonal.  Entries that share the position are added up in storage order. -/
def diagonal [Storage S V W] (A : SparseMatrix S n n) : Vector S n :=
  Vector.ofFn fun i =>
    ((A.row i).filter (·.column = i)).foldl (fun sum e => Storage.add sum e.value) Storage.zero

/-! ## Normalisation -/

/-- Every row in ascending order of columns; equal columns keep their storage order. -/
def sorted (A : SparseMatrix α m n) : SparseMatrix α m n :=
  ofRows fun i => (A.row i).mergeSort fun e f => e.column ≤ f.column

/-- The entries that are not zero. -/
def withoutZeros [Storage S V W] (A : SparseMatrix S m n) : SparseMatrix S m n :=
  ofRows fun i => (A.row i).filter fun e => !Storage.isZero e.value

/-! ## Transpose, product and renumbering -/

/-- The transpose.  Every row lists its entries by ascending column, and entries of one position in
storage order. -/
def transpose (A : SparseMatrix α m n) : SparseMatrix α n m :=
  ofRows fun j => (List.finRange m).flatMap fun i =>
    ((A.row i).filter (·.column = j)).map fun e => ⟨i, e.value⟩

/-- Adds `x` to the sum kept for column `c`; a column met for the first time goes to the front. -/
def accumulate [Storage S V W] (sums : List (Entry n S)) (c : Fin n) (x : S) : List (Entry n S) :=
  if sums.any (·.column = c) then
    sums.map fun e => if e.column = c then ⟨c, Storage.add e.value x⟩ else e
  else
    ⟨c, Storage.add Storage.zero x⟩ :: sums

/-- The product.  Row `i` sums the products `v * w` over the stored entries `v` of row `i` of `A`
and, for each of them, the stored entries `w` of the row that it selects from `B`.  Columns are
listed last discovered first, and sums equal to zero are dropped. -/
def mul [Storage S V W] [Mul S] (A : SparseMatrix S k m) (B : SparseMatrix S m n) :
    SparseMatrix S k n :=
  ofRows fun i =>
    let sums := (A.row i).foldl (fun sums e => (B.row e.column).foldl
      (fun sums f => accumulate sums f.column (e.value * f.value)) sums) []
    sums.filter fun e => !Storage.isZero e.value

/-- Renames the columns by `index`; an entry whose new column is not below `count` is dropped. -/
def renumber (A : SparseMatrix α m n) (index : Vector Nat n) (count : Nat) :
    SparseMatrix α m count :=
  ofRows fun i => (A.row i).filterMap fun e =>
    if h : index.get e.column < count then some ⟨⟨index.get e.column, h⟩, e.value⟩ else none

end SparseMatrix

end Multigrid
