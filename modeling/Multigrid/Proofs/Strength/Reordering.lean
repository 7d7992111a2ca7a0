import Multigrid.Proofs.Scalar.Comparison
import Multigrid.Proofs.Sparse.Coefficient
import Multigrid.Proofs.Sparse.RowBuffer
import Multigrid.Proofs.Splitting.Renumbering
import Multigrid.Proofs.Strength.Influence

/-!
# Reordered rows

A row whose entries change places keeps its diagonal, as long as no column is stored twice, and the
extremes of its other entries change at most as much as two zeros differ.  No comparison sees that,
so every entry keeps its mark.  Influence counts marks and splitting asks for the strong relation
only; neither depends on the places.

None of this asks for exact arithmetic, since nothing is added up on the way.

## Main definitions

* `SparseMatrix.IsReordered`, `StrengthGraph.IsReordered`: the same entries in any order

## Main results

* `StrengthGraph.alike_threshold`, `StrengthGraph.isReordered_ofMatrix`: thresholds and marks
* `SparseMatrix.IsReordered.exists_measured_eq_ok`: marks and influence
* `StrengthGraph.IsReordered.split_eq`: the splitting
-/

namespace Multigrid

variable {α β : Type} {m n : Nat}

/-! ## Operators -/

/-- Every row has the same entries, stored in any order. -/
def SparseMatrix.IsReordered (A B : SparseMatrix α m n) : Prop := ∀ i, (A.row i).Perm (B.row i)

/-- In a row that stores no column twice, there is nothing to reorder in a single column. -/
theorem filter_column_eq {entries entries' : List (Entry n α)} (h : entries.Perm entries')
    (hdistinct : (entries.map Entry.column).Nodup) (j : Fin n) :
    entries.filter (·.column = j) = entries'.filter (·.column = j) := by
  have hperm := h.filter (·.column = j)
  have hnodup := (List.filter_sublist (p := (·.column = j)) (l := entries)).map Entry.column
    |>.nodup hdistinct
  have hcolumn : ∀ e ∈ entries.filter (·.column = j), e.column = j := by
    intro e he
    simpa using (List.mem_filter.mp he).2
  generalize entries.filter (·.column = j) = kept at hperm hnodup hcolumn ⊢
  rcases kept with _ | ⟨e, _ | ⟨e', rest⟩⟩
  · exact hperm.nil_eq
  · exact hperm.singleton_eq
  · have hsame : e.column = e'.column := by rw [hcolumn e (by simp), hcolumn e' (by simp)]
    simp [hsame] at hnodup

namespace SparseMatrix

theorem HasDistinctColumns.map {A : SparseMatrix α m n} (hA : A.HasDistinctColumns) (f : α → β) :
    (A.map f).HasDistinctColumns := by
  intro i
  rw [SparseMatrix.map, row_ofRows, List.map_map]
  exact hA i

namespace IsReordered

variable {A B : SparseMatrix α m n} (h : A.IsReordered B)

include h

theorem hasDistinctColumns (hA : A.HasDistinctColumns) : B.HasDistinctColumns :=
  fun i => ((h i).map Entry.column).nodup_iff.mp (hA i)

theorem map (f : α → β) : (A.map f).IsReordered (B.map f) := by
  intro i
  rw [SparseMatrix.map, SparseMatrix.map, row_ofRows, row_ofRows]
  exact (h i).map _

end IsReordered

theorem IsReordered.lastDiagonal?_eq {A B : SparseMatrix α n n} (h : A.IsReordered B)
    (hA : A.HasDistinctColumns) (i : Fin n) : B.lastDiagonal? i = A.lastDiagonal? i := by
  rw [lastDiagonal?, lastDiagonal?, filter_column_eq (h i) (hA i) i]

end SparseMatrix

/-! ## Marks -/

/-- Every row has the same marked entries, stored in any order. -/
def StrengthGraph.IsReordered (G H : StrengthGraph α n) : Prop := ∀ i, (G.row i).Perm (H.row i)

namespace StrengthGraph

section Threshold

variable {V : Type} [Arith V] [ValueOrder V] {A B : SparseMatrix V n n} (h : A.IsReordered B)
  (hA : A.HasDistinctColumns) (tolerance : V)

include h hA

/-- No comparison tells the thresholds of a row and of the reordered row apart. -/
theorem alike_threshold (i : Fin n) :
    Arith.Alike (threshold tolerance A i) (threshold tolerance B i) := by
  have hitems (x : V) : x ∈ 0 :: offDiagonal A i ↔ x ∈ 0 :: offDiagonal B i := by
    have hperm : (offDiagonal A i).Perm (offDiagonal B i) := ((h i).filter _).map _
    rw [List.mem_cons, List.mem_cons, hperm.mem_iff]
  have hnegative : hasNegativeDiagonal B i = hasNegativeDiagonal A i := by
    rw [hasNegativeDiagonal, hasNegativeDiagonal, h.lastDiagonal?_eq hA]
  rw [threshold, threshold, hnegative]
  apply ValueOrder.mul_alike
  split_ifs
  · exact (isExtreme_foldl_greatest _ 0).alike (.inr rfl) (isExtreme_foldl_greatest _ 0) hitems
  · exact (isExtreme_foldl_least _ 0).alike (.inl rfl) (isExtreme_foldl_least _ 0) hitems

/-- Entries keep their marks. -/
theorem isReordered_ofMatrix : (ofMatrix tolerance A).IsReordered (ofMatrix tolerance B) := by
  intro i
  have hmark (e : Entry n V) : decide (e.column ≠ i ∧ e.value < threshold tolerance B i) =
      decide (e.column ≠ i ∧ e.value < threshold tolerance A i) :=
    decide_eq_decide.mpr (and_congr_right' (ValueOrder.lt_congr (alike_threshold h hA _ i)).symm)
  rw [ofMatrix, ofMatrix, row_ofRows, row_ofRows]
  simp only [hmark]
  exact (h i).map _

end Threshold

/-! ## Influence and splitting -/

namespace IsReordered

variable {G H : StrengthGraph α n} (h : G.IsReordered H)

include h

theorem isStrong_iff (i j : Fin n) : H.IsStrong i j ↔ G.IsStrong i j := by
  simp only [IsStrong, (h i).mem_iff]

theorem strongPairs_perm : G.strongPairs.Perm H.strongPairs :=
  List.Perm.flatMap_left _ fun i _ => ((h i).filter _).map _

/-- Influence counts strong entries. -/
theorem influence_eq {Ω : Type} [Add Ω] [One Ω] (start : Vector Ω n) :
    H.influence start = G.influence start := by
  unfold influence influenced
  simp only [(h.strongPairs_perm.map Prod.snd).count_eq]

/-- A graph with reordered rows has the same splitting, or fails as the graph does. -/
theorem split_eq {Ω R : Type} [Arith Ω] [WeightOrder Ω] (weights : Vector Ω n)
    (limit : Option Int) :
    (H.split weights limit : Except (Fault R) (Splitting n)) = G.split weights limit := by
  -- the points keep their numbers
  have hsplit :=
    map_split_renumbered (R := R) (π := Equiv.refl (Fin n)) h.isStrong_iff weights limit
  have hid : Splitting.renumbered (Equiv.refl (Fin n)) = id := by
    funext s
    rw [Splitting.renumbered, renumbered_refl]
    rfl
  rw [renumbered_refl, hid] at hsplit
  rw [hsplit]
  cases (G.split weights limit : Except (Fault R) (Splitting n)) <;> rfl

end IsReordered

end StrengthGraph

/-- A reordered operator has the marks of the operator, in another order, and the same influence
weights. -/
theorem SparseMatrix.IsReordered.exists_measured_eq_ok {V W : Type} [Arith V] [Arith W]
    [Storage V V W] [ValueOrder V] {A B : SparseMatrix V n n} (h : A.IsReordered B)
    (hA : A.HasDistinctColumns) {tolerance : W} {start : InfluenceStart} {G : StrengthGraph V n}
    {weights : Vector Float32 n} (hmeasured : A.measured tolerance start = .ok (G, weights)) :
    ∃ H, B.measured tolerance start = .ok (H, weights) ∧ G.IsReordered H := by
  obtain ⟨_, htolerance, hrest⟩ := exists_of_bind_eq_ok hmeasured
  obtain ⟨values, hvalues, hgraph⟩ := exists_of_bind_eq_ok hrest
  cases hgraph
  have hgraph := StrengthGraph.isReordered_ofMatrix h hA (Storage.narrow tolerance)
  refine ⟨_, ?_, hgraph⟩
  rw [← hgraph.influence_eq values]
  exact bind_eq_ok htolerance (bind_eq_ok hvalues rfl)

end Multigrid
