import Multigrid.Sparse.Compressed

/-!
# Strong connections

An off-diagonal entry of an operator is a strong connection if it lies below a threshold of its
row.  The threshold is a fixed multiple of the most extreme off-diagonal value: of the largest one
in a row with a negative diagonal, of the smallest one in every other row.  Both extremes start
from zero.

## Main definitions

* `Connection`, `StrengthGraph`: an operator whose entries are marked as strong or not
* `SparseMatrix.lastDiagonal?`: the diagonal entry that a kernel reads
* `StrengthGraph.threshold`, `StrengthGraph.ofMatrix`: the marking by thresholds
* `StrengthGraph.ofMarks`, `StrengthGraph.ofFlags`: the marking by lists of flags
* `Compressed.marked`: the same for a compressed operator
* `StrengthGraph.strongPairs`: the strong connections as pairs of a row and a column
-/

namespace Multigrid

/-- A stored entry with its mark. -/
structure Connection (α : Type) (n : Nat) extends Entry n α where
  /-- Is the connection strong? -/
  strong : Bool

/-- An operator whose stored entries are marked as strong or not. -/
structure StrengthGraph (α : Type) (n : Nat) where
  /-- The rows, each in storage order. -/
  rows : Vector (List (Connection α n)) n

/-- The diagonal entry of row `i` that is stored last. -/
def SparseMatrix.lastDiagonal? {α : Type} {n : Nat} (A : SparseMatrix α n n) (i : Fin n) :
    Option α :=
  ((A.row i).filter (·.column = i)).getLast?.map Entry.value

namespace StrengthGraph

variable {α V Ω : Type} {n : Nat}

/-- The marked entries of row `i`. -/
def row (G : StrengthGraph α n) (i : Fin n) : List (Connection α n) := G.rows.get i

/-- The graph whose row `i` is `f i`. -/
def ofRows (f : Fin n → List (Connection α n)) : StrengthGraph α n := ⟨Vector.ofFn f⟩

@[simp] theorem row_ofRows (f : Fin n → List (Connection α n)) (i : Fin n) :
    (ofRows f).row i = f i :=
  Vector.getElem_ofFn i.isLt

/-- The operator without its marks. -/
def operator (G : StrengthGraph α n) : SparseMatrix α n n :=
  .ofRows fun i => (G.row i).map Connection.toEntry

@[simp] theorem row_operator (G : StrengthGraph α n) (i : Fin n) :
    G.operator.row i = (G.row i).map Connection.toEntry := by
  simp [operator]

/-- The same graph with every value mapped. -/
def map {β : Type} (f : α → β) (G : StrengthGraph α n) : StrengthGraph β n :=
  ofRows fun i => (G.row i).map fun c => ⟨⟨c.column, f c.value⟩, c.strong⟩

/-- The marks in storage order, row after row. -/
def flags (G : StrengthGraph α n) : List Bool :=
  (List.finRange n).flatMap fun i => (G.row i).map Connection.strong

/-- The operator `A` with the entries of every row marked by the row's item of `marks`. -/
def ofMarks (A : SparseMatrix α n n) (marks : List (List Bool)) : StrengthGraph α n :=
  let marks := marks.toArray
  ofRows fun i => (A.row i).zipWith (fun e strong => ⟨e, strong⟩) (marks.getD i [])

/-- The operator `A` with its entries marked by `flags`, in storage order. -/
def ofFlags (A : SparseMatrix α n n) (flags : List Bool) : StrengthGraph α n :=
  ofMarks A (pieces A.rowLengths flags)

/-- The strong connections of row `i`, in storage order. -/
def strongRow (G : StrengthGraph α n) (i : Fin n) : List (Connection α n) :=
  (G.row i).filter (·.strong)

/-- The strong connections as pairs of a row and a column, in storage order. -/
def strongPairs (G : StrengthGraph α n) : List (Fin n × Fin n) :=
  (List.finRange n).flatMap fun i => (G.strongRow i).map fun c => (i, c.column)

/-! ## Marking by thresholds -/

section Threshold

variable [Arith V]

/-- The off-diagonal values of row `i`. -/
def offDiagonal (A : SparseMatrix V n n) (i : Fin n) : List V :=
  ((A.row i).filter (·.column ≠ i)).map Entry.value

/-- Does row `i` have a negative diagonal? -/
def hasNegativeDiagonal (A : SparseMatrix V n n) (i : Fin n) : Bool :=
  match A.lastDiagonal? i with
  | some d => d < 0
  | none => false

/-- The value below which an off-diagonal entry of row `i` is a strong connection. -/
def threshold (tolerance : V) (A : SparseMatrix V n n) (i : Fin n) : V :=
  (if hasNegativeDiagonal A i then (offDiagonal A i).foldl Arith.greatest 0
    else (offDiagonal A i).foldl Arith.least 0) * tolerance

/-- The operator `A` with every off-diagonal entry below the threshold of its row marked as
strong. -/
def ofMatrix (tolerance : V) (A : SparseMatrix V n n) : StrengthGraph V n :=
  ofRows fun i =>
    let bound := threshold tolerance A i
    (A.row i).map fun e => ⟨e, decide (e.column ≠ i ∧ e.value < bound)⟩

end Threshold

end StrengthGraph

/-- The strength graph of a compressed operator of `n` points with its entries marked by `flags`.  A
single flag marks all entries, and columns below zero count from the end. -/
def Compressed.marked {α R : Type} (A : Compressed α) (n : Nat) (flags : List Bool) :
    Except (Fault R) (StrengthGraph α n) := do
  A.checkRows n
  let flags ← spread A.slotCount flags
  return .ofFlags (← A.toMatrixBy n n (pointOf? n)) flags.toList

end Multigrid
