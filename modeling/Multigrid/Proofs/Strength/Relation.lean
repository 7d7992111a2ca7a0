import Multigrid.Strength.Graph

/-!
# The strong relation

The marks of a strength graph say which rows have a strong entry in which columns.  The relation
forgets values, repetitions and the order of the entries.  It need not be symmetric, and a row may
have a strong entry in its own column.

## Main definitions

* `StrengthGraph.IsStrong`: a row has a strong entry in a column
* `StrengthGraph.IsSymmetric`: strong entries come in pairs
-/

namespace Multigrid

namespace StrengthGraph

variable {α : Type} {n : Nat} (G : StrengthGraph α n)

/-- Row `i` has a strong entry in column `j`. -/
def IsStrong (i j : Fin n) : Prop := ∃ c ∈ G.row i, c.strong = true ∧ c.column = j

/-- A row has a strong entry in a column if and only if the row of the column has one back. -/
def IsSymmetric : Prop := ∀ i j, G.IsStrong i j ↔ G.IsStrong j i

instance (i j : Fin n) : Decidable (G.IsStrong i j) :=
  inferInstanceAs (Decidable (∃ c ∈ G.row i, c.strong = true ∧ c.column = j))

instance : Decidable G.IsSymmetric :=
  inferInstanceAs (Decidable (∀ i j, G.IsStrong i j ↔ G.IsStrong j i))

variable {G}

theorem mem_strongRow {i : Fin n} {c : Connection α n} :
    c ∈ G.strongRow i ↔ c ∈ G.row i ∧ c.strong = true :=
  List.mem_filter

theorem exists_mem_strongRow {i : Fin n} {p : Fin n → Prop} :
    (∃ c ∈ G.strongRow i, p c.column) ↔ ∃ j, G.IsStrong i j ∧ p j := by
  constructor
  · rintro ⟨c, hc, hp⟩
    exact ⟨c.column, ⟨c, (mem_strongRow.mp hc).1, (mem_strongRow.mp hc).2, rfl⟩, hp⟩
  · rintro ⟨_, ⟨c, hc, hs, rfl⟩, hp⟩
    exact ⟨c, mem_strongRow.mpr ⟨hc, hs⟩, hp⟩

@[simp] theorem mem_strongPairs {i j : Fin n} : (i, j) ∈ G.strongPairs ↔ G.IsStrong i j := by
  simp only [strongPairs, List.mem_flatMap, List.mem_finRange, true_and, List.mem_map,
    Prod.mk.injEq]
  constructor
  · rintro ⟨_, c, hc, rfl, hj⟩
    exact ⟨c, (mem_strongRow.mp hc).1, (mem_strongRow.mp hc).2, hj⟩
  · rintro ⟨c, hc, hs, hj⟩
    exact ⟨i, c, mem_strongRow.mpr ⟨hc, hs⟩, rfl, hj⟩

/-- The entries of an operator that is marked by thresholds. -/
theorem mem_row_ofMatrix {V : Type} [Arith V] {tolerance : V} {A : SparseMatrix V n n} {i : Fin n}
    {c : Connection V n} (hc : c ∈ (ofMatrix tolerance A).row i) :
    c.toEntry ∈ A.row i ∧
      (c.strong = true ↔ c.column ≠ i ∧ c.value < threshold tolerance A i) := by
  rw [ofMatrix, row_ofRows] at hc
  obtain ⟨e, he, rfl⟩ := List.mem_map.mp hc
  exact ⟨he, decide_eq_true_iff⟩

end StrengthGraph

end Multigrid
