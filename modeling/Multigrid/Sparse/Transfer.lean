import Multigrid.Sparse.Source

/-!
# Operands of a product

The restriction of a prolongator is its transpose, and the product of the two around an operator is
formed only for compressed operands.  An operand of another form fails in its own way: a single
value and a list that does not fit are refused for their size, a table that fits leads to a product
that is no compressed matrix.

## Main definitions

* `Transfer`: a prolongator together with its restriction
* `MatrixSource.transfer`: the transfer of a prolongator in any form
* `MatrixSource.factor`: the operator in the middle
-/

namespace Multigrid

/-- A prolongator and the restriction that belongs to it. -/
structure Transfer (S : Type) where
  /-- The number of points. -/
  size : Nat
  /-- The number of coarse points. -/
  coarseSize : Nat
  /-- The prolongator. -/
  prolongator : SparseMatrix S size coarseSize
  /-- The restriction. -/
  restriction : SparseMatrix S coarseSize size

namespace MatrixSource

variable {S V W R : Type} [Storage S V W]

/-- The transfer of a prolongator. -/
def transfer : MatrixSource S → Except (Fault R) (Transfer S)
  | byRows ⟨n, k, P⟩ => .ok ⟨n, k, P, P.transpose⟩
  | byColumns ⟨k, n, restriction⟩ => .ok ⟨n, k, restriction.transpose, restriction⟩
  | triplets n k items =>
    let P : SparseMatrix S n k := .ofTriplets items
    .ok ⟨n, k, P, P.transpose⟩
  | table _ _ _ | flat _ _ | unreadable _ => .error .notCompressed

/-- The operator with `n` points for a product with `k` coarse points. -/
def factor (source : MatrixSource S) (n k : Nat) : Except (Fault R) (SparseMatrix S n n) :=
  match source with
  | unreadable isValue => .error (if isValue then .unequalLengths else .notANumber)
  | flat size _ => .error (if size = n ∧ k = n then .notCompressed else .unequalLengths)
  | source =>
    match source.toMatrix?.bind SizedMatrix.square? with
    | some ⟨m, A⟩ =>
      if h : m = n then
        if source.isTable then .error .notCompressed else .ok (h ▸ A)
      else .error .unequalLengths
    | none => .error .unequalLengths

end MatrixSource

end Multigrid
