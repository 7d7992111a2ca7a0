import Multigrid.Splitting.Rounds

/-!
# Single passes

A pass of a round may be run on its own, with labels, weights and marks of new points that are
given as lists.  The lists may be shorter than a graph has points, as long as the pass does not
look beyond their ends.  A pass that looks at one list only takes any length.

## Main definitions

* `PassState`: the lists that the passes change
* `PassState.promote`, `PassState.withdraw`, `PassState.close`: the passes of a round
* `PassState.withdrawMarked`, `PassState.closeMarked`: the same for a list of flags
* `Compressed.split`: the splitting for weights and marks that are given as lists
-/

namespace Multigrid

variable {α R Ω : Type} {n : Nat}

/-- The labels of points, and marks of the points promoted last. -/
structure PassState where
  /-- The labels. -/
  labels : List Label
  /-- Was the point promoted by the last promotion? -/
  fresh : List Bool

namespace PassState

variable (s : PassState)

/-- The labels for `n` points. -/
def labelled (n : Nat) : Vector Label n := filled n (.other (-1)) s.labels

/-- The state with the labels of `n` points, as far as there were any. -/
def withLabels (labels : Vector Label n) : PassState :=
  { s with labels := labels.toList.take s.labels.length ++ s.labels.drop n }

/-- Promotes undecided points.  The marks of the new points are as many as the labels; the mark of a
single label serves any number of points. -/
def promote [Arith Ω] (weights : List Ω) : Except (Fault R) PassState := do
  let weights ← spread s.labels.length weights
  let labels : Vector Label s.labels.length := ⟨s.labels.toArray, rfl⟩
  let some fresh := spread? s.fresh.length (Splitting.promoted weights labels).toList
    | throw .unequalLengths
  return ⟨(Splitting.promote weights labels).toList, fresh.toList⟩

/-- Does every point that has an entry, in its row or in its column, come before `count`? -/
def isCovered (G : StrengthGraph α n) (count : Nat) : Bool :=
  (List.finRange n).all fun i =>
    ((G.row i).isEmpty || i < count) && (G.row i).all fun c => c.column < count

/-- Withdraws the lighter ends of strong connections between new points. -/
def withdraw [Arith Ω] (G : StrengthGraph α n) (weights : List Ω) :
    Except (Fault R) PassState := do
  if !isCovered G s.fresh.length then throw .slotOutOfRange
  let fresh := filled n false s.fresh
  let weight := filled n (0 : Ω) weights
  let edges := G.strongPairs.filter fun (i, j) => fresh.get i && fresh.get j
  if edges.any fun (i, j) => weights.length ≤ i ∨ weights.length ≤ j then throw .slotOutOfRange
  let lighter := edges.filterMap fun (i, j) =>
    if weight.get j < weight.get i then some j
    else if weight.get i < weight.get j then some i
    else none
  if lighter.any (s.labels.length ≤ ·.val) then throw .slotOutOfRange
  return s.withLabels (Splitting.withdraw G weight fresh (s.labelled n))

/-- Closes the neighbourhood of coarse points. -/
def close (G : StrengthGraph α n) : Except (Fault R) PassState := do
  if !isCovered G s.labels.length then throw .slotOutOfRange
  return s.withLabels (Splitting.close G (s.labelled n))

/-- Withdraws the lighter ends of connections that `flags` marks between new points. -/
def withdrawMarked [Arith Ω] (A : Compressed α) (n : Nat) (flags : List Bool) (weights : List Ω) :
    Except (Fault R) PassState := do
  A.checkRows s.fresh.length
  s.withdraw (← A.marked n flags) weights

/-- Closes the neighbourhood of coarse points along the connections that `flags` marks. -/
def closeMarked (A : Compressed α) (n : Nat) (flags : List Bool) : Except (Fault R) PassState := do
  A.checkRows s.labels.length
  s.close (← A.marked n flags)

/-- Is any point undecided? -/
def hasUndecided : Bool := s.labels.any (· = .undecided)

end PassState

/-- The splitting of a compressed operator of `n` points with its entries marked by `flags`.  A
single weight serves all points, but new points that are connected have one each. -/
def Compressed.split [Arith Ω] (A : Compressed α) (n : Nat) (flags : List Bool) (weights : List Ω)
    (limit : Option Int) : Except (Fault R) (Splitting n) := do
  checkRounds limit
  A.checkOrder
  if n = 0 then return ⟨.replicate n .undecided, 0, true⟩
  let spreadWeights ← spread n weights
  let G ← A.marked n flags
  let isSpread (i : Fin n) : Bool := 1 ≤ spreadWeights.get i ∧ weights.length ≤ i
  if G.strongPairs.any fun (i, j) => isSpread i || isSpread j then throw .slotOutOfRange
  G.split spreadWeights limit

end Multigrid
