import Multigrid.Proofs.Hierarchy.Outcome
import Multigrid.Proofs.Hierarchy.Parameters
import Multigrid.Proofs.Interpolation.Counting
import Multigrid.Proofs.Interpolation.Rows
import Multigrid.Proofs.Splitting.Run
import Multigrid.Proofs.Strength.Influence

/-!
# The steps to a prolongator

With valid parameters no step to a prolongator fails: the tolerance, the limit on rounds and the
ratio of truncation pass their checks, and both schemes write as many entries as they count.  No
value of the operator matters for that, and none has to be comparable.

## Main results

* `Parameters.exists_of_prolongation_eq_ok`: a prolongator, taken apart into its steps
* `exists_rows_of_interpolated_eq_ok`: the rows that interpolation writes
* `Parameters.exists_prolongation_eq_ok`: there is a prolongator
-/

namespace Multigrid

variable {S V W : Type} {n : Nat} [Arith V] [Arith W]

/-! ## Truncation -/

section Truncation

omit [Arith V]

variable [Storage V V W]

theorem truncatedIfAsked_eq_ok {k : Nat} (P : SparseMatrix V n k) {ratio : W}
    (hratio : 0 ≤ ratio ∧ ratio ≤ 1) :
    truncatedIfAsked P ratio =
      .ok (if 0 < ratio then .ofRows (Truncation.rows P ratio) else P) := by
  unfold truncatedIfAsked
  split_ifs
  · exact Truncation.truncated_eq_ok P hratio
  · rfl

end Truncation

/-! ## Interpolation -/

section Interpolation

variable [Storage V V W] {G : StrengthGraph V n} {labels : Vector Label n} {diagonal : Vector W n}
  {p : Parameters W}

/-- Interpolation writes rows one after the other, and the matrix has these rows with the coarse
points numbered. -/
theorem exists_rows_of_interpolated_eq_ok (hcounts : Direct.CountsKept G labels)
    {buffer : RowBuffer V n} (h : interpolated G labels diagonal p = .ok buffer) :
    ∃ rows : Fin n → List (Entry n V), buffer = RowBuffer.ofRows rows n ∧
      ∀ i, ((coarseColumns labels buffer).row i).map (fun e => (e.column.val, e.value)) =
        (rows i).map fun e => ((coarseNumbers labels).get e.column, e.value) := by
  unfold interpolated at h
  cases hscheme : p.scheme with
  | direct =>
    rw [hscheme] at h
    simp only [Direct.prolongator_eq_ok hcounts] at h
    cases h
    exact ⟨_, rfl, Direct.map_row_coarseColumns_rows _ labels⟩
  | extended =>
    rw [hscheme] at h
    obtain ⟨given, -, h⟩ := exists_of_bind_eq_ok h
    obtain ⟨rows, hrow, rfl⟩ := Extended.exists_rows_of_prolongator_eq_ok h
    exact ⟨rows, rfl, Extended.map_row_of_rows hrow⟩

variable (diagonal) in
theorem exists_interpolated_eq_ok (hcounts : Direct.CountsKept G labels)
    (hcapacity : p.capacity = .ok none) (hn : n ≤ 0x8000000000000000) :
    ∃ buffer, interpolated G labels diagonal p = .ok buffer := by
  unfold interpolated
  cases p.scheme with
  | direct => exact ⟨_, Direct.prolongator_eq_ok hcounts⟩
  | extended =>
    rw [hcapacity]
    exact Extended.exists_prolongator_eq_ok G labels diagonal p.firstOnly hn

end Interpolation

/-! ## All steps -/

section Steps

variable [Storage V V W] {p : Parameters W}

/-- Strong entries are below a threshold, so direct interpolation writes what it counts. -/
theorem countsKept_of_measured [ValueOrder V] {A : SparseMatrix V n n} {tolerance : W}
    {start : InfluenceStart} {graph : StrengthGraph V n} {weights : Vector Float32 n}
    (h : A.measured tolerance start = .ok (graph, weights)) (labels : Vector Label n) :
    Direct.CountsKept graph labels := by
  obtain ⟨_, -, rfl, -⟩ := SparseMatrix.exists_of_measured_eq_ok h
  exact Direct.countsKept_of_hasComparableMarks labels
    (StrengthGraph.hasComparableMarks_ofMatrix _ _)

/-- Start values that are not given are always found. -/
theorem exists_measured_eq_ok (hp : p.IsValid) (A : SparseMatrix V n n) : ∃ weights,
    A.measured p.tolerance p.influenceStart =
      .ok (.ofMatrix (Storage.narrow p.tolerance) A, weights) := by
  obtain ⟨values, hvalues⟩ : ∃ values, p.influenceStart.weights n =
      (.ok values : Except (Fault W) (Vector Float32 n)) := by
    unfold Parameters.influenceStart
    split_ifs
    · exact ⟨_, rfl⟩
    · exact ⟨_, rfl⟩
  exact ⟨_, bind_eq_ok (if_pos hp.tolerance) (bind_eq_ok hvalues rfl)⟩

variable [Storage S V W]

/-- The steps to a prolongator, taken apart. -/
theorem Parameters.exists_of_prolongation_eq_ok {A : SparseMatrix S n n} {q : Prolongation V n}
    (h : p.prolongation A = .ok q) : ∃ graph weights buffer,
      (A.map Storage.value).measured p.tolerance p.influenceStart = .ok (graph, weights) ∧
      graph.split weights p.maxRounds = (.ok q.splitting : Except (Fault W) (Splitting n)) ∧
      interpolated graph q.splitting.labels (A.diagonal.map Storage.widen) p = .ok buffer ∧
      truncatedIfAsked (coarseColumns q.splitting.labels buffer) p.truncation = .ok q.matrix := by
  obtain ⟨⟨graph, weights⟩, hmeasured, h⟩ := exists_of_bind_eq_ok h
  obtain ⟨splitting, hsplit, h⟩ := exists_of_bind_eq_ok h
  obtain ⟨buffer, hbuffer, h⟩ := exists_of_bind_eq_ok h
  obtain ⟨matrix, hmatrix, h⟩ := exists_of_bind_eq_ok h
  cases h
  exact ⟨graph, weights, buffer, hmeasured, hsplit, hbuffer, hmatrix⟩

/-- With valid parameters there is a prolongator, whatever the values of the operator are. -/
theorem Parameters.exists_prolongation_eq_ok [ValueOrder V] (hp : p.IsValid)
    (hcapacity : p.capacity = .ok none) (hn : n ≤ 0x8000000000000000) (A : SparseMatrix S n n) :
    ∃ q : Prolongation V n, p.prolongation A = .ok q := by
  obtain ⟨weights, hmeasured⟩ := exists_measured_eq_ok hp (A.map Storage.value)
  set graph := StrengthGraph.ofMatrix (Storage.narrow p.tolerance) (A.map Storage.value)
  obtain ⟨splitting, hsplit⟩ : ∃ s, graph.split weights p.maxRounds =
      (.ok s : Except (Fault W) (Splitting n)) :=
    ⟨_, StrengthGraph.split_eq_ok p.maxRounds hp.maxRounds⟩
  obtain ⟨buffer, hbuffer⟩ := exists_interpolated_eq_ok (A.diagonal.map Storage.widen)
    (countsKept_of_measured hmeasured splitting.labels) hcapacity hn
  exact ⟨_, bind_eq_ok hmeasured (bind_eq_ok hsplit (bind_eq_ok hbuffer
    (bind_eq_ok (truncatedIfAsked_eq_ok _ hp.truncation) rfl)))⟩

end Steps

end Multigrid
