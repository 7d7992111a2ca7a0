import Multigrid.Proofs.Strength.Compressed
import Multigrid.Proofs.Strength.Influence

/-!
# The order of influence

Start values from zero on and below one are there to tell points of equal influence apart.  They do
that and nothing else: the points of weight one or more are those with a strong connection into
their column, and a point with more of them is not behind one with fewer.  Rounded increments may
make two weights equal but do not swap them.  That also holds for counts at which an increment
changes nothing any more, so no bound on the counts is asked for.

## Main definitions

* `StrengthGraph.strongCount`: the number of strong connections into a column

## Main results

* `StrengthGraph.get_influence_eq`: weights as counts of increments
* `SparseMatrix.influence_order`: weights are ordered by counts, and by start values within a count
-/

namespace Multigrid

variable {α V W R : Type} {n : Nat}

/-! ## Counts of strong connections -/

namespace StrengthGraph

/-- The number of strong connections into column `j`. -/
def strongCount (G : StrengthGraph α n) (j : Fin n) : Nat :=
  ∑ i, (G.row i).countP fun c => c.strong && decide (c.column = j)

theorem count_strongPairs (G : StrengthGraph α n) (j : Fin n) :
    (G.strongPairs.map Prod.snd).count j = G.strongCount j := by
  have hrow (i : Fin n) : (((G.strongRow i).map fun c => (i, c.column)).map Prod.snd).count j =
      (G.row i).countP fun c => c.strong && decide (c.column = j) := by
    rw [List.map_map, List.count_eq_countP, List.countP_map, strongRow, List.countP_filter]
    -- the marks and the columns are tested in either order
    congr 1
    funext c
    exact Bool.and_comm _ _
  rw [strongPairs, List.map_flatMap, List.count_flatMap, strongCount, Fin.sum_univ_def]
  congr 1
  exact List.map_congr_left fun i _ => hrow i

/-- A weight is a start value that is increased once for every strong connection into the column. -/
theorem get_influence_eq {Ω : Type} [Add Ω] [One Ω] (G : StrengthGraph α n) (start : Vector Ω n)
    (j : Fin n) : (G.influence start).get j = increased (start.get j) (G.strongCount j) := by
  rw [get_influence, count_strongPairs]

end StrengthGraph

/-! ## Weights of an operator -/

theorem InfluenceStart.weights_given (start : Vector Float32 n) :
    ((InfluenceStart.given start.toList).weights n : Except (Fault R) (Vector Float32 n)) =
      .ok start := by
  rw [InfluenceStart.weights, dif_pos (by simp)]
  rfl

namespace SparseMatrix

variable [Arith V] [Arith W] [Storage V V W]

theorem measured_eq_ok (A : SparseMatrix V n n) {tolerance : W} (hpos : 0 < tolerance)
    (hone : tolerance ≤ 1) {start : InfluenceStart} {values : Vector Float32 n}
    (hvalues : start.weights n = (.ok values : Except (Fault W) _)) :
    A.measured tolerance start = .ok (.ofMatrix (Storage.narrow tolerance) A,
      (StrengthGraph.ofMatrix (Storage.narrow tolerance) A).influence values) := by
  have htolerance : checkTolerance tolerance = .ok () := if_pos ⟨hpos, hone⟩
  exact bind_eq_ok htolerance (bind_eq_ok hvalues rfl)

/-- Weights from start values that are at least zero and below one.  A weight is at least one if and
only if its point has a strong connection into its column, a higher count does not come with a lower
weight, and among equal counts the weights are in the order of the start values. -/
theorem influence_order (A : SparseMatrix V n n) {tolerance : W} (hpos : 0 < tolerance)
    (hone : tolerance ≤ 1) {start : Vector Float32 n}
    (hstart : ∀ j, 0 ≤ start.get j ∧ start.get j < 1) :
    ∃ graph weights, A.measured tolerance (.given start.toList) = .ok (graph, weights) ∧
      A.compressed.measured n tolerance (.given start.toList) = .ok (graph.flags, weights) ∧
      (∀ j, 1 ≤ weights.get j ↔ 1 ≤ graph.strongCount j) ∧
      (∀ i j, graph.strongCount j < graph.strongCount i → weights.get j ≤ weights.get i) ∧
      ∀ i j, graph.strongCount i = graph.strongCount j → start.get j ≤ start.get i →
        weights.get j ≤ weights.get i := by
  have hmeasured := A.measured_eq_ok hpos hone (InfluenceStart.weights_given start)
  refine ⟨_, _, hmeasured, ?_, ?_, ?_, ?_⟩
  · rw [measured_compressed, hmeasured]
    rfl
  · intro j
    rw [StrengthGraph.get_influence_eq]
    constructor
    · intro h
      by_contra hnone
      -- without an increment the weight is the start value
      rw [Nat.eq_zero_of_not_pos hnone] at h
      exact ValueOrder.not_le_of_lt (hstart j).2 h
    · exact one_le_increased (hstart j).1
  · intro i j hcount
    rw [StrengthGraph.get_influence_eq, StrengthGraph.get_influence_eq]
    -- a start value below one is at most any other one, increased by one
    have hnext : start.get j ≤ start.get i + 1 :=
      ValueOrder.le_trans (ValueOrder.le_of_lt (hstart j).2) (one_le_add_one (hstart i).1)
    exact increased_le_of_lt hnext (ValueOrder.le_self (hstart i).1).2 hcount
  · intro i j hcount hle
    rw [StrengthGraph.get_influence_eq, StrengthGraph.get_influence_eq, hcount]
    exact increased_le_increased hle _

/-- Three points in a row. -/
def threeInARow : SparseMatrix Rat 3 3 :=
  .ofRows fun i => (List.finRange 3).filterMap fun j =>
    if i = j then some ⟨j, 2⟩
    else if i.val + 1 = j ∨ j.val + 1 = i then some ⟨j, -1⟩ else none

/-- The last point of `threeInARow` starts ahead of the others. -/
def threeInARowStart : Vector Float32 3 := #v[0, 0.25, 0.5]

theorem threeInARow_weights_le : ∃ graph weights,
    threeInARow.measured 0.25 (.given threeInARowStart.toList) = .ok (graph, weights) ∧
      weights.get 0 ≤ weights.get 2 ∧ weights.get 2 ≤ weights.get 1 := by
  have hstart : ∀ j, 0 ≤ threeInARowStart.get j ∧ threeInARowStart.get j < 1 := by decide
  have hpos : (0 : Rat) < 0.25 := by norm_num
  have hone : (0.25 : Rat) ≤ 1 := by norm_num
  obtain ⟨graph, weights, hmeasured, -, -, hmore, hsame⟩ :=
    influence_order threeInARow hpos hone hstart
  obtain ⟨-, -, rfl, -⟩ := exists_of_measured_eq_ok hmeasured
  refine ⟨_, weights, hmeasured, hsame 2 0 ?_ ?_, hmore 1 2 ?_⟩
  · decide +kernel
  · decide +kernel
  · decide +kernel

end SparseMatrix

end Multigrid
