import Multigrid.Splitting.Label
import Multigrid.Sparse.Stored
import Multigrid.Strength.Graph

/-!
# Operators to interpolate

Interpolation reads an operator together with the marks of its entries and the labels of its points.
The marks come as one list over all slots and the labels as a list as well.  Direct interpolation
looks at all of them at once, so both lists have to fit before anything is computed.

## Main definitions

* `LabelledOperator`: an operator with marks and labels
* `StoredMatrix.labelled`: the operator of a stored matrix, for lists that fit
-/

namespace Multigrid

/-- An operator with marked entries and labelled points. -/
structure LabelledOperator (S V : Type) where
  /-- The number of points. -/
  size : Nat
  /-- The operator. -/
  operator : SparseMatrix S size size
  /-- The operator with its marks. -/
  graph : StrengthGraph V size
  /-- The labels. -/
  labels : Vector Label size

/-- The operator of a stored matrix with one mark for every slot and one label for every point.  A
single mark serves all slots. -/
def StoredMatrix.labelled {S V W R : Type} [Storage S V W] (A : StoredMatrix S)
    (flags : List Bool) (labels : List Label) : Except (Fault R) (LabelledOperator S V) := do
  A.parts.checkOrder
  if A.parts.pruned.columns.any fun column => (pointOf? labels.length column).isNone then
    throw .columnOutOfRange
  let flags ← spread A.parts.slotCount flags
  if h : labels.toArray.size = A.rowCount then
    let operator ← A.operator
    return ⟨_, operator, .ofFlags (operator.map Storage.value) flags.toList, ⟨labels.toArray, h⟩⟩
  else throw .slotOutOfRange

end Multigrid
