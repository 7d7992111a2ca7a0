import Multigrid.Random.Generator
import Multigrid.Strength.Graph
import Multigrid.Scalar.Storage
import Multigrid.Fault

/-!
# Influence

The influence weight of a point is a start value, increased by one for every strong connection into
the point's column.  Start values below one order points of equal influence and leave open which
points have any: those are the points of weight at least one.

## Main definitions

* `StrengthGraph.influence`: the weights of a graph
* `InfluenceStart`: where the start values come from
* `checkTolerance`: the tolerances that a threshold admits
* `SparseMatrix.measured`: the strength graph of an operator together with its influence weights
* `Compressed.measured`: the same for an operator whose columns may lie outside
-/

namespace Multigrid

/-- The start value, increased by one `count` times, with a rounding at every step. -/
def increased {Ω : Type} [Add Ω] [One Ω] (start : Ω) (count : Nat) : Ω :=
  Nat.repeat (· + 1) count start

/-- The start values, each increased by one for every time that its point is one of `points`. -/
def influenced {Ω : Type} {n : Nat} [Add Ω] [One Ω] (start : Vector Ω n) (points : List (Fin n)) :
    Vector Ω n :=
  Vector.ofFn fun j => increased (start.get j) (points.count j)

/-- The start values, each increased by one for every strong connection into its column. -/
def StrengthGraph.influence {α Ω : Type} {n : Nat} [Add Ω] [One Ω] (G : StrengthGraph α n)
    (start : Vector Ω n) : Vector Ω n :=
  influenced start (G.strongPairs.map Prod.snd)

/-- The source of the start values. -/
inductive InfluenceStart where
  /-- Every start value is zero. -/
  | zero
  /-- The start values are uniform draws of a seed, given by its words. -/
  | drawn (seed : List UInt32)
  /-- The start values are given. -/
  | given (weights : List Float32)

/-- The start values for `n` points. -/
def InfluenceStart.weights {R : Type} (n : Nat) :
    InfluenceStart → Except (Fault R) (Vector Float32 n)
  | zero => .ok (.replicate n 0)
  | drawn seed =>
    let draws := (Random.uniforms seed n).toArray
    .ok (.ofFn fun i => draws.getD i 0)
  | given weights =>
    if h : weights.toArray.size = n then .ok ⟨weights.toArray, h⟩
    else .error (.influenceLength n weights.length)

/-- The tolerances that a threshold admits: above zero and at most one. -/
def checkTolerance {W : Type} [Arith W] (tolerance : W) : Except (Fault W) Unit :=
  if 0 < tolerance ∧ tolerance ≤ 1 then .ok () else .error (.toleranceOutOfRange tolerance)

/-- The strength graph of an operator and the influence weights of its points. -/
def SparseMatrix.measured {V W : Type} {n : Nat} [Arith V] [Arith W] [Storage V V W]
    (A : SparseMatrix V n n) (tolerance : W) (start : InfluenceStart) :
    Except (Fault W) (StrengthGraph V n × Vector Float32 n) := do
  checkTolerance tolerance
  let weights ← start.weights n
  let graph := StrengthGraph.ofMatrix (Storage.narrow tolerance) A
  return (graph, graph.influence weights)

/-- The marks of a compressed operator of `n` points in storage order, and the influence weights of
the points.  A column outside of the operator is a column like any other as long as it is not
strong.  A strong one has to stand for a point: columns below zero count from the end. -/
def Compressed.measured {V W : Type} [Arith V] [Arith W] [Storage V V W] (A : Compressed V)
    (n : Nat) (tolerance : W) (start : InfluenceStart) :
    Except (Fault W) (List Bool × Vector Float32 n) := do
  checkTolerance tolerance
  A.checkOrder
  let weights ← start.weights n
  A.checkRows n
  let size := n + A.columns.length
  let operator ← (A.withOwnColumns n).toMatrixBy size size (columnOf? size)
  let graph := StrengthGraph.ofMatrix (Storage.narrow tolerance) operator
  let columns := A.columns.toArray
  let point? (column : Fin size) : Option (Fin n) :=
    if h : column < n then some ⟨column, h⟩ else columns[column.val - n]?.bind (pointOf? n)
  let some points := graph.strongPairs.mapM fun (_, column) => point? column
    | throw .columnOutOfRange
  return (graph.flags, influenced weights points)

end Multigrid
