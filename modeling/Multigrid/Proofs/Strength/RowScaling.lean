import Multigrid.Proofs.Sparse.Product
import Multigrid.Splitting.Rounds
import Multigrid.Strength.Influence

/-!
# Scaled rows

Whether an entry is strong is decided within its row: it is compared with a part of an extreme value
of the same row.  If the rows of an operator are multiplied by factors above zero, a row and its
threshold change by one factor, and all marks stay.  Influence and splitting look at the marks only.

## Main definitions

* `SparseMatrix.rowScaled`, `StrengthGraph.rowScaled`: every row multiplied by a factor of its own

## Main results

* `SparseMatrix.coefficients_rowScaled`: the product with a diagonal matrix
* `StrengthGraph.ofMatrix_rowScaled`, `SparseMatrix.measured_rowScaled`: marks and influence
* `StrengthGraph.split_rowScaled`: the splitting
-/

namespace Multigrid

variable {m n : Nat}

/-! ## Scaled operators -/

/-- The entry with its value multiplied by `s`. -/
def Entry.scaled (s : Rat) (e : Entry n Rat) : Entry n Rat := ⟨e.column, s * e.value⟩

/-- The connection with its value multiplied by `s`. -/
def Connection.scaled (s : Rat) (c : Connection Rat n) : Connection Rat n :=
  ⟨c.toEntry.scaled s, c.strong⟩

/-- The same stored entries, those of row `i` multiplied by `d i`. -/
def SparseMatrix.rowScaled (d : Fin m → Rat) (A : SparseMatrix Rat m n) : SparseMatrix Rat m n :=
  .ofRows fun i => (A.row i).map (Entry.scaled (d i))

/-- The same connections, the values of row `i` multiplied by `d i`. -/
def StrengthGraph.rowScaled (d : Fin n → Rat) (G : StrengthGraph Rat n) : StrengthGraph Rat n :=
  .ofRows fun i => (G.row i).map (Connection.scaled (d i))

/-- Entries are selected by their columns before or after they are scaled. -/
theorem filter_column_map_scaled (p : Fin n → Bool) (s : Rat) (entries : List (Entry n Rat)) :
    (entries.map (Entry.scaled s)).filter (fun e => p e.column) =
      (entries.filter fun e => p e.column).map (Entry.scaled s) := by
  rw [List.filter_map]
  rfl

theorem coefficientOf_map_scaled (s : Rat) (entries : List (Entry n Rat)) (j : Fin n) :
    coefficientOf (entries.map (Entry.scaled s)) j = s * coefficientOf entries j := by
  rw [coefficientOf, filter_column_map_scaled (fun k => decide (k = j)), List.map_map]
  exact List.sum_map_mul_left _ Entry.value s

namespace SparseMatrix

variable {d : Fin n → Rat} {i : Fin n}

@[simp] theorem row_rowScaled (d : Fin m → Rat) (A : SparseMatrix Rat m n) (i : Fin m) :
    (A.rowScaled d).row i = (A.row i).map (Entry.scaled (d i)) :=
  row_ofRows _ i

/-- Scaled rows are a product with a diagonal matrix. -/
theorem coefficients_rowScaled (d : Fin m → Rat) (A : SparseMatrix Rat m n) :
    (A.rowScaled d).coefficients = Matrix.diagonal d * A.coefficients := by
  ext i j
  rw [Matrix.diagonal_mul, coefficients_apply, coefficient, row_rowScaled,
    coefficientOf_map_scaled]
  rfl

theorem get_diagonal_rowScaled (A : SparseMatrix Rat n n) (i : Fin n) :
    (A.rowScaled d).diagonal.get i = d i * A.diagonal.get i := by
  rw [get_diagonal, get_diagonal, coefficient, row_rowScaled, coefficientOf_map_scaled]
  rfl

theorem lastDiagonal?_rowScaled (A : SparseMatrix Rat n n) (i : Fin n) :
    (A.rowScaled d).lastDiagonal? i = (A.lastDiagonal? i).map (d i * ·) := by
  rw [lastDiagonal?, row_rowScaled, filter_column_map_scaled (fun k => decide (k = i)),
    List.getLast?_map, Option.map_map, lastDiagonal?, Option.map_map]
  rfl

end SparseMatrix

/-! ## Extremes -/

section Extremes

variable {s : Rat} (hs : 0 < s)

include hs

theorem foldl_least_map_mul (items : List Rat) :
    (items.map (s * ·)).foldl Arith.least 0 = s * items.foldl Arith.least 0 := by
  rw [List.foldl_map, ← List.foldl_hom (s * ·), mul_zero]
  intro x y
  rw [least_eq_min, least_eq_min, mul_min_of_nonneg x y hs.le]

theorem foldl_greatest_map_mul (items : List Rat) :
    (items.map (s * ·)).foldl Arith.greatest 0 = s * items.foldl Arith.greatest 0 := by
  rw [List.foldl_map, ← List.foldl_hom (s * ·), mul_zero]
  intro x y
  rw [greatest_eq_max, greatest_eq_max, mul_max_of_nonneg x y hs.le]

end Extremes

namespace StrengthGraph

variable {d : Fin n → Rat}

/-! ## Marks -/

section Marks

variable (hd : ∀ i, 0 < d i) (A : SparseMatrix Rat n n) (i : Fin n)

theorem offDiagonal_rowScaled :
    offDiagonal (A.rowScaled d) i = (offDiagonal A i).map (d i * ·) := by
  rw [offDiagonal, SparseMatrix.row_rowScaled, filter_column_map_scaled (fun k => decide (k ≠ i)),
    List.map_map, offDiagonal, List.map_map]
  rfl

include hd

theorem hasNegativeDiagonal_rowScaled :
    hasNegativeDiagonal (A.rowScaled d) i = hasNegativeDiagonal A i := by
  unfold hasNegativeDiagonal
  rw [SparseMatrix.lastDiagonal?_rowScaled]
  cases A.lastDiagonal? i with
  | none => rfl
  | some x => exact decide_eq_decide.mpr (smul_neg_iff_of_pos_left (hd i))

/-- The threshold of a row changes by the factor of the row. -/
theorem threshold_rowScaled (tolerance : Rat) :
    threshold tolerance (A.rowScaled d) i = d i * threshold tolerance A i := by
  rw [threshold, hasNegativeDiagonal_rowScaled hd, offDiagonal_rowScaled,
    foldl_greatest_map_mul (hd i), foldl_least_map_mul (hd i), threshold]
  split_ifs
  · exact mul_assoc _ _ _
  · exact mul_assoc _ _ _

/-- A scaled operator has the marks of the operator. -/
theorem ofMatrix_rowScaled (tolerance : Rat) :
    ofMatrix tolerance (A.rowScaled d) = (ofMatrix tolerance A).rowScaled d := by
  unfold ofMatrix rowScaled
  congr 1
  funext i
  rw [row_ofRows, threshold_rowScaled hd, SparseMatrix.row_rowScaled, List.map_map, List.map_map]
  apply List.map_congr_left
  intro e _
  have hstrong : decide (e.column ≠ i ∧ d i * e.value < d i * threshold tolerance A i) =
      decide (e.column ≠ i ∧ e.value < threshold tolerance A i) :=
    decide_eq_decide.mpr (and_congr_right' (mul_lt_mul_iff_right₀ (hd i)))
  exact congrArg (Connection.mk (e.scaled (d i))) hstrong

end Marks

/-! ## Splitting -/

section Splitting

variable (G : StrengthGraph Rat n)

@[simp] theorem row_rowScaled (d : Fin n → Rat) (i : Fin n) :
    (G.rowScaled d).row i = (G.row i).map (Connection.scaled (d i)) :=
  row_ofRows _ i

theorem operator_rowScaled : (G.rowScaled d).operator = G.operator.rowScaled d := by
  apply SparseMatrix.eq_of_row_eq
  intro i
  rw [row_operator, row_rowScaled, SparseMatrix.row_rowScaled, row_operator, List.map_map,
    List.map_map]
  rfl

theorem strongRow_rowScaled (i : Fin n) :
    (G.rowScaled d).strongRow i = (G.strongRow i).map (Connection.scaled (d i)) := by
  rw [strongRow, row_rowScaled, List.filter_map]
  rfl

theorem strongPairs_rowScaled : (G.rowScaled d).strongPairs = G.strongPairs := by
  unfold strongPairs
  congr 1
  funext i
  rw [strongRow_rowScaled, List.map_map]
  rfl

theorem influence_rowScaled {Ω : Type} [Add Ω] [One Ω] (start : Vector Ω n) :
    (G.rowScaled d).influence start = G.influence start := by
  rw [influence, strongPairs_rowScaled, influence]

variable {Ω : Type} [Arith Ω] (weights : Vector Ω n)

theorem close_rowScaled (labels : Vector Label n) :
    Splitting.close (G.rowScaled d) labels = Splitting.close G labels := by
  unfold Splitting.close
  congr 1
  funext i
  rw [strongRow_rowScaled, List.any_map]
  rfl

theorem playRound_rowScaled (labels : Vector Label n) :
    Splitting.playRound (G.rowScaled d) weights labels = Splitting.playRound G weights labels := by
  rw [Splitting.playRound, close_rowScaled, Splitting.withdraw, strongPairs_rowScaled]
  rfl

theorem refine_rowScaled (labels : Vector Label n) (rounds limit : Nat) :
    (G.rowScaled d).refine weights labels rounds limit = G.refine weights labels rounds limit := by
  induction limit generalizing labels rounds with
  | zero => rfl
  | succ limit ih => rw [refine, refine, playRound_rowScaled, ih]

/-- A scaled operator has the splitting of the operator, or fails as it does. -/
theorem split_rowScaled {R : Type} (limit : Option Int) :
    ((G.rowScaled d).split weights limit : Except (Fault R) (Splitting n)) =
      G.split weights limit := by
  rw [split, refine_rowScaled]
  rfl

end Splitting

end StrengthGraph

/-- A scaled operator has the marks and the influence weights of the operator. -/
theorem SparseMatrix.measured_rowScaled {d : Fin n → Rat} (hd : ∀ i, 0 < d i)
    (A : SparseMatrix Rat n n) (tolerance : Rat) (start : InfluenceStart) :
    (A.rowScaled d).measured tolerance start =
      (A.measured tolerance start).map fun (G, weights) => (G.rowScaled d, weights) := by
  unfold measured
  rw [StrengthGraph.ofMatrix_rowScaled hd]
  cases (checkTolerance tolerance : Except (Fault Rat) Unit) with
  | error fault => rfl
  | ok _ =>
    cases (start.weights n : Except (Fault Rat) (Vector Float32 n)) with
    | error fault => rfl
    | ok weights =>
      refine congrArg Except.ok (Prod.ext rfl ?_)
      exact StrengthGraph.influence_rowScaled _ weights

end Multigrid
