import Multigrid.Interpolation.Extended
import Multigrid.Interpolation.Operand

/-!
# Operators that are read row by row

Extended interpolation reads an operator, its marks and its labels row by row.  Whatever is missing
there is a fault of the first row that asks for it, and rows before it may have faults of their own
that come first.  The rows of coarse points are not looked at.  The length of a row depends on its
strong entries only, its weights depend on all of its entries.

Before that the capacity of the tables may have to be found.  The bound that it is taken from counts
over all stored lines at once.

## Main definitions

* `PartialOperator`: an operator, and which rows of it can be read
* `StoredMatrix.readRows`: the operator of a stored matrix with marks and labels
* `PartialOperator.rowSizes`, `PartialOperator.fill`: the prolongator, as far as it can be built
* `StoredMatrix.reachBounds`: a bound on the length of every row
-/

namespace Multigrid

/-- A labelled operator of which rows may be missing. -/
structure PartialOperator (S V : Type) extends LabelledOperator S V where
  /-- The number of rows that a prolongator has. -/
  rowCount : Nat
  /-- Can the marks and the strong entries of a row be read? -/
  hasStrong : Vector Bool size
  /-- Can all of a row be read? -/
  hasRow : Vector Bool size

section Reading

variable {S V W R : Type} [Storage S V W]

/-- The stored lines with the marks of their slots, as far as there are any. -/
def Compressed.markedRows (c : Compressed S) (flags : List Bool) :
    List (List ((Int × S) × Bool)) :=
  c.rows.zipWith List.zip (c.byRow flags)

/-- The operator of a stored matrix.  It has as many points as the matrix has rows, or more if there
are more labels.  A row without a label or without all of its marks cannot be read, and a column has
to stand for a label. -/
def StoredMatrix.readRows (A : StoredMatrix S) (flags : List Bool) (labels : List Label) :
    PartialOperator S V :=
  let n := max A.rowCount labels.length
  let point? (column : Int) : Option (Fin n) := leadingPoint? labels.length n column
  let lengths := (gaps A.parts.pointer).toArray
  let rows := (A.parts.markedRows flags).toArray
  let row (i : Fin n) := rows.getD i []
  let isThere (i : Fin n) : Bool :=
    i < labels.length && i < rows.size && lengths.getD i 0 ≤ ((row i).length : Int)
  let connections : StrengthGraph S n := .ofRows fun i =>
    (row i).filterMap fun ((column, value), strong) =>
      (point? column).map fun column => ⟨⟨column, value⟩, strong⟩
  { size := n
    operator := connections.operator
    graph := connections.map Storage.value
    labels := filled n .undecided labels
    rowCount := A.rowCount
    hasStrong := .ofFn fun i =>
      isThere i && (row i).all fun ((column, _), strong) => !strong || (point? column).isSome
    hasRow := .ofFn fun i =>
      isThere i && (row i).all fun ((column, _), _) => (point? column).isSome }

end Reading

namespace PartialOperator

variable {S V W R : Type} (A : PartialOperator S V) (firstOnly : Bool) (capacity : Int)

/-- The length of every row of the prolongator. -/
def rowSizes : Except (Fault R) (List Nat) :=
  Extended.rowSizes A.graph A.labels firstOnly (some capacity)
    (Extended.plan A.graph A.labels A.hasStrong.get (fun _ => true) A.rowCount)

variable [Arith V] [Arith W] [Storage V V W] (diagonal : List W)

/-- Writes the prolongator into the slots of a row pointer.  The diagonal may end early. -/
def fill (pointer : List Int) (width : Nat) : Except (Fault R) (RowBuffer V A.size) :=
  Extended.fill A.graph A.labels (filled A.size 0 diagonal) firstOnly (some capacity)
    (Extended.plan A.graph A.labels A.hasRow.get (fun i => i < diagonal.length) A.rowCount)
    pointer width

/-- The prolongator, with columns numbered like the points. -/
def prolongator : Except (Fault R) (RowBuffer V A.size) := do
  let sizes ← A.rowSizes firstOnly capacity
  A.fill firstOnly capacity diagonal (runningTotals (sizes.map Int.ofNat)) A.size

end PartialOperator

/-! ## Bounds -/

/-- The number of rows that a count over rows covers: at least `n`, and all rows that occur. -/
def coveredRows {k : Nat} (n : Nat) (rows : List (Fin k)) : Nat :=
  (rows.map fun i => i.val + 1).foldl max n

/-- A bound on the length of every row, which counts the reached points with repetitions.  Points
that are reached at once and points that are reached by way of another one are counted separately
over all lines; both counts and the labels have to cover the same rows. -/
def StoredMatrix.reachBounds {S R : Type} (A : StoredMatrix S) (flags : List Bool)
    (labels : List Label) (firstOnly : Bool) : Except (Fault R) (List Nat) := do
  A.parts.checkOrder
  let n := max A.lineCount (max A.rowCount labels.length)
  let operator ← A.parts.toMatrixBy n n (leadingPoint? labels.length n)
  let graph := StrengthGraph.ofFlags operator (← spread A.parts.slotCount flags).toList
  let label := filled n .undecided labels
  let coarse := strongCoarse graph label
  let others (i : Fin n) := (graph.strongRow i).filter fun c => label.get c.column ≠ .coarse
  let points := List.finRange n
  let atOnce := coveredRows A.rowCount (points.filter fun i => !(coarse i).isEmpty)
  if (points.flatMap others).any fun c => atOnce ≤ c.column then throw .columnOutOfRange
  let byWay := coveredRows A.rowCount (points.filter fun i => !(others i).isEmpty)
  let bounds ← sumEach
    ((points.take atOnce).map fun i => ((coarse i).length : Int))
    ((points.take byWay).map fun i =>
      ((Extended.reachedBy graph label firstOnly (others i)).length : Int))
  if bounds.length ≠ labels.length then throw .slotOutOfRange
  return bounds.zipWith (fun bound label => if label = .coarse then 1 else bound.toNat) labels

end Multigrid
