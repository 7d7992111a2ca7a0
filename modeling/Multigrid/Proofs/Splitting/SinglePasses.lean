import Multigrid.Proofs.Sparse.RowBuffer
import Multigrid.Proofs.Splitting.Round
import Multigrid.Splitting.Passes

/-!
# The passes of a round, one after the other

The passes of a round can be run on their own, from any labels and with any marks of new points.
Promotion reads the labels and replaces all marks, so that marks which an earlier round has left
behind have no influence.  Withdrawal looks at the marks and not at the labels: coarse points of
earlier rounds are not marked, and neither withdraw a point nor are withdrawn.  Closure looks at the
labels and not at the marks, and closes the neighbourhood of old coarse points as well as of new
ones.

On lists that have an item for every point, no pass fails and every pass does what it does in a
round.  Three passes are therefore a round, and have its rule.

## Main results

* `PassState.promote_eq_ok`, `PassState.withdraw_eq_ok`, `PassState.close_eq_ok`: the passes
* `PassState.round_rule`: promotion, withdrawal and closure from any labels and marks
-/

namespace Multigrid

variable {α β R Ω : Type} {n : Nat}

/-! ## Lists with an item for every point -/

theorem spread?_eq_some {values : List β} (h : values.toArray.size = n) :
    spread? n values = some ⟨values.toArray, h⟩ :=
  dif_pos h

theorem spread_eq_ok {values : List β} (h : values.toArray.size = n) :
    spread n values = (.ok ⟨values.toArray, h⟩ : Except (Fault R) (Vector β n)) := by
  rw [spread, spread?_eq_some h]

theorem filled_toList (blank : β) (v : Vector β n) : filled n blank v.toList = v := by
  ext i hi
  simp [filled]

namespace PassState

/-- Labels for all points, and a mark for each of them. -/
def ofVectors (labels : Vector Label n) (marks : Vector Bool n) : PassState :=
  ⟨labels.toList, marks.toList⟩

variable (labels new : Vector Label n) (marks : Vector Bool n)

theorem labelled_ofVectors : (ofVectors labels marks).labelled n = labels :=
  filled_toList _ labels

/-- Labels of all points replace all labels. -/
theorem withLabels_ofVectors :
    (ofVectors labels marks).withLabels new = ofVectors new marks := by
  have hdrop : labels.toList.drop n = [] := List.drop_eq_nil_iff.mpr (by simp)
  simp [withLabels, ofVectors, hdrop]

theorem isCovered_self (G : StrengthGraph α n) : isCovered G n = true := by
  simp [isCovered]

variable [Arith Ω] (weights : Vector Ω n)

/-- Promotion replaces the marks by those of the points that it promotes. -/
theorem promote_eq_ok : (ofVectors labels marks).promote weights.toList =
    (.ok (ofVectors (Splitting.promote weights labels) (Splitting.promoted weights labels)) :
      Except (Fault R) PassState) := by
  have hweights : weights.toList.toArray.size = (ofVectors labels marks).labels.length := by
    simp [ofVectors]
  -- the pass works on vectors of the same items, of a length that is equal but not the same
  have hmarks (new : Vector Bool (ofVectors labels marks).labels.length) :
      new.toList.toArray.size = (ofVectors labels marks).fresh.length := by
    rw [List.size_toArray, Vector.length_toList]
    simp [ofVectors]
  rw [promote, bind_eq_of_eq_ok (spread_eq_ok hweights)]
  simp only [spread?_eq_some (hmarks _)]
  refine congrArg Except.ok ?_
  simp only [ofVectors, Splitting.promote, Splitting.promoted, Vector.toList_zipWith]
  rfl

/-- Withdrawal changes labels only. -/
theorem withdraw_eq_ok (G : StrengthGraph α n) :
    (ofVectors labels marks).withdraw G weights.toList =
      (.ok (ofVectors (Splitting.withdraw G weights marks labels) marks) :
        Except (Fault R) PassState) := by
  have hcovered : isCovered G (ofVectors labels marks).fresh.length = true := by
    simp [ofVectors, isCovered_self]
  have hmarks : filled n false (ofVectors labels marks).fresh = marks := filled_toList _ marks
  -- every point has a label and a weight, so no list ends before a point that is looked at
  have hlabels (points : List (Fin n)) :
      (points.any fun i => (ofVectors labels marks).labels.length ≤ i.val) = false := by
    simp [ofVectors]
  have hweights (pairs : List (Fin n × Fin n)) : (pairs.any fun pair =>
      weights.toList.length ≤ pair.1.val ∨ weights.toList.length ≤ pair.2.val) = false := by
    simp
  simp only [withdraw, hcovered, hmarks, filled_toList, labelled_ofVectors, withLabels_ofVectors,
    hlabels, hweights]
  rfl

/-- Closure changes labels only. -/
theorem close_eq_ok (G : StrengthGraph α n) : (ofVectors labels marks).close G =
    (.ok (ofVectors (Splitting.close G labels) marks) : Except (Fault R) PassState) := by
  have hcovered : isCovered G (ofVectors labels marks).labels.length = true := by
    simp [ofVectors, isCovered_self]
  rw [close, hcovered, labelled_ofVectors, withLabels_ofVectors]
  rfl

/-- The three passes are a round, whatever the marks were before. -/
theorem passes_eq_playRound (G : StrengthGraph α n) :
    (do
      let s ← (ofVectors labels marks).promote weights.toList
      let s ← s.withdraw G weights.toList
      s.close G : Except (Fault R) PassState) =
    .ok (ofVectors (Splitting.playRound G weights labels) (Splitting.promoted weights labels)) :=
  bind_eq_ok (promote_eq_ok labels marks weights)
    (bind_eq_ok (withdraw_eq_ok _ _ weights G) (close_eq_ok _ _ G))

/-- Promotion, withdrawal and closure from any labels and with any marks left behind.  A decided
point keeps its label, and an undecided one whose weight is not at least one becomes fine.  Any
other point becomes coarse unless one of those is strongly connected to it, in one direction or the
other, and is heavier.  If it does not, then it becomes fine if it has a strong entry in the column
of a point that is coarse by now, be it an old one or a new one, and stays undecided otherwise. -/
theorem round_rule (G : StrengthGraph α n) (weights : Vector Float32 n) (labels : Vector Label n)
    (marks : Vector Bool n) :
    ∃ after : Vector Label n,
      (do
        let s ← (ofVectors labels marks).promote weights.toList
        let s ← s.withdraw G weights.toList
        s.close G : Except (Fault R) PassState) =
          .ok (ofVectors after (Splitting.promoted weights labels)) ∧
      ∀ i,
        (labels.get i ≠ .undecided → after.get i = labels.get i) ∧
        (labels.get i = .undecided → ¬ 1 ≤ weights.get i → after.get i = .fine) ∧
        (labels.get i = .undecided → 1 ≤ weights.get i →
          (after.get i = .coarse ↔
            ¬ ∃ j, labels.get j = .undecided ∧ 1 ≤ weights.get j ∧
              (G.IsStrong i j ∨ G.IsStrong j i) ∧ weights.get i < weights.get j) ∧
          (after.get i ≠ .coarse → after.get i =
            if ∃ j, G.IsStrong i j ∧ after.get j = .coarse then .fine else .undecided)) := by
  refine ⟨_, passes_eq_playRound labels marks weights G, fun i => ⟨?_, ?_, ?_⟩⟩
  · exact Splitting.get_playRound_of_decided
  · intro hi hweight
    exact Splitting.get_playRound_eq_fine_iff.mpr (.inr (.inl ⟨hi, hweight⟩))
  · intro hi hweight
    have hcandidate : Splitting.IsCandidate weights labels i := ⟨hi, hweight⟩
    have hcoarse : (Splitting.playRound G weights labels).get i = .coarse ↔
        ¬ Splitting.IsOutweighed G weights labels i := by
      rw [Splitting.get_playRound_eq_coarse_iff, hi]
      simp [hcandidate]
    refine ⟨?_, fun hnot => ?_⟩
    · simpa only [Splitting.IsOutweighed, Splitting.IsCandidate, and_assoc] using hcoarse
    · have houtweighed : Splitting.IsOutweighed G weights labels i :=
        not_not.mp fun h => hnot (hcoarse.mpr h)
      split_ifs with hclosed
      · exact Splitting.get_playRound_eq_fine_iff.mpr
          (.inr (.inr ⟨hcandidate, houtweighed, hclosed⟩))
      · refine Splitting.get_playRound_eq_undecided_iff.mpr ⟨hcandidate, houtweighed, ?_⟩
        exact fun j hij hj => hclosed ⟨j, hij, hj⟩

end PassState

end Multigrid
