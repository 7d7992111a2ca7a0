import Multigrid.Proofs.Splitting.Run

/-!
# Termination of the rounds

Labels move backwards within a round, so the number of undecided points says nothing about the
work that is left.  The weights of the undecided points do.  A candidate of the greatest weight is
not outweighed, whichever other points share that weight, and so the greatest weight among the
candidates of a round is missing from those of the next.  After as many rounds as there are
different weights from one on, and after one round at least, no point is undecided.

## Main definitions

* `heavyWeights`: the different weights from one on
* `StrengthGraph.openWeights`: those of points that are undecided after a number of rounds

## Main results

* `StrengthGraph.exists_endsAfter`: the rounds end
* `StrengthGraph.split_converges`: the loop converges under every limit that reaches the bound
-/

namespace Multigrid

variable {α Ω : Type} {n : Nat} [Arith Ω] [DecidableEq Ω]

/-- The different weights from one on. -/
def heavyWeights (weights : Vector Ω n) : Finset Ω :=
  (Finset.univ.filter fun i => 1 ≤ weights.get i).image weights.get

theorem card_heavyWeights_le (weights : Vector Ω n) : (heavyWeights weights).card ≤ n := by
  calc (heavyWeights weights).card
      ≤ (Finset.univ.filter fun i => 1 ≤ weights.get i).card := Finset.card_image_le
    _ ≤ (Finset.univ : Finset (Fin n)).card := Finset.card_filter_le _ _
    _ = n := Finset.card_fin n

namespace StrengthGraph

variable (G : StrengthGraph α n) (weights : Vector Ω n)

/-- The different weights of the points that are candidates after `k` rounds. -/
def openWeights (k : Nat) : Finset Ω :=
  (Finset.univ.filter (Splitting.IsCandidate weights (G.labelsAfter weights k))).image weights.get

variable {G weights}

theorem mem_openWeights {k : Nat} {w : Ω} :
    w ∈ G.openWeights weights k ↔
      ∃ i, Splitting.IsCandidate weights (G.labelsAfter weights k) i ∧ weights.get i = w := by
  simp [openWeights]

theorem openWeights_zero : G.openWeights weights 0 = heavyWeights weights := by
  ext w
  simp [mem_openWeights, heavyWeights, Splitting.IsCandidate]

variable [WeightOrder Ω]

theorem openWeights_succ_subset (k : Nat) :
    G.openWeights weights (k + 1) ⊆ G.openWeights weights k := by
  intro w hw
  obtain ⟨i, ⟨hu, hi⟩, rfl⟩ := mem_openWeights.mp hw
  apply mem_openWeights.mpr
  exact ⟨i, ⟨get_labelsAfter_eq_undecided_of_le (Nat.le_succ k) hu, hi⟩, rfl⟩

/-- Each round settles every point of the greatest weight that is still open. -/
theorem openWeights_succ_ssubset {k : Nat} (h : (G.openWeights weights k).Nonempty) :
    G.openWeights weights (k + 1) ⊂ G.openWeights weights k := by
  obtain ⟨w, hw⟩ := h
  obtain ⟨i, hi, -⟩ := mem_openWeights.mp hw
  -- the weight that goes missing is that of a candidate without a heavier one
  obtain ⟨m, hm, hmax⟩ := Splitting.exists_heaviest hi
  apply (Finset.ssubset_iff_of_subset (openWeights_succ_subset k)).mpr
  refine ⟨weights.get m, mem_openWeights.mpr ⟨m, hm, rfl⟩, ?_⟩
  intro hopen
  obtain ⟨j, ⟨hu, -⟩, hj⟩ := mem_openWeights.mp hopen
  -- a point of this weight that stays undecided would be outweighed by a heavier candidate
  obtain ⟨-, ⟨l, hl, -, hlt⟩, -⟩ := Splitting.get_playRound_eq_undecided_iff.mp hu
  exact hmax l hl (hj ▸ hlt)

theorem card_openWeights_add_le (k : Nat) (h : (G.openWeights weights k).Nonempty) :
    (G.openWeights weights k).card + k ≤ (heavyWeights weights).card := by
  induction k with
  | zero => rw [openWeights_zero, Nat.add_zero]
  | succ k ih =>
    have hk : (G.openWeights weights k).Nonempty := h.mono (openWeights_succ_subset k)
    have hlt := Finset.card_lt_card (openWeights_succ_ssubset hk)
    have hle := ih hk
    omega

theorem openWeights_nonempty {k : Nat}
    (h : Splitting.hasUndecided (G.labelsAfter weights (k + 1)) = true) :
    (G.openWeights weights (k + 1)).Nonempty := by
  obtain ⟨i, hi⟩ := Splitting.hasUndecided_iff.mp h
  exact ⟨weights.get i, mem_openWeights.mpr ⟨i, ⟨hi, one_le_of_get_labelsAfter hi⟩, rfl⟩⟩

/-- After as many rounds as there are weights from one on, and after one round at least, no point is
undecided. -/
theorem hasUndecided_labelsAfter_max :
    Splitting.hasUndecided
      (G.labelsAfter weights (max 1 (heavyWeights weights).card)) = false := by
  obtain ⟨k, hk⟩ : ∃ k, max 1 (heavyWeights weights).card = k + 1 :=
    Nat.exists_eq_add_one.mpr (by omega)
  rw [hk]
  by_contra hu
  -- an open weight is left, though every round before has taken one of them
  have hopen := openWeights_nonempty (by simpa using hu)
  have hle := card_openWeights_add_le (k + 1) hopen
  have hpos := hopen.card_pos
  omega

variable (G weights)

/-- The rounds end, and there are no more of them than points. -/
theorem exists_endsAfter :
    ∃ k, G.EndsAfter weights k ∧ k ≤ n ∧ k ≤ max 1 (heavyWeights weights).card := by
  have hend : ∃ k, Splitting.hasUndecided (G.labelsAfter weights k) = false :=
    ⟨_, hasUndecided_labelsAfter_max⟩
  have hle := Nat.find_min' hend hasUndecided_labelsAfter_max
  refine ⟨Nat.find hend, ⟨Nat.find_spec hend, fun j hj => ?_⟩, ?_, hle⟩
  · simpa using Nat.find_min hend hj
  · rcases Nat.eq_zero_or_pos n with rfl | hn
    · exact Nat.find_min' hend (Splitting.hasUndecided_eq_false_iff.mpr fun i => i.elim0)
    · exact hle.trans (max_le hn (card_heavyWeights_le weights))

/-- The rounds come to an end that leaves no point undecided, after none of them for a graph without
points and otherwise after at most as many as there are different weights from one on, or one.  A
loop without a limit stops there, and so does every loop whose limit is no smaller than that bound
or than a positive number of points.  It gives no warning. -/
theorem split_converges {R : Type} (G : StrengthGraph α n) (weights : Vector Float32 n) :
    ∃ k, G.EndsAfter weights k ∧ (n = 0 → k = 0) ∧ k ≤ max 1 (heavyWeights weights).card ∧
      ∀ limit : Option Int,
        (∀ cap ∈ limit, max 1 (heavyWeights weights).card ≤ cap ∨ 1 ≤ n ∧ n ≤ cap) →
        ∃ s : Splitting n, (G.split weights limit : Except (Fault R) (Splitting n)) = .ok s ∧
          s.labels = G.labelsAfter weights k ∧ s.rounds = k ∧ s.converged = true ∧
          s.warning = none ∧ ∀ i, s.labels.get i ≠ .undecided := by
  obtain ⟨k, hk, hn, hle⟩ := exists_endsAfter G weights
  have hconv : (G.splittingAfter weights k).converged = true := by
    simp [splittingAfter, hk.1]
  have hzero : n = 0 → k = 0 := by
    intro h
    exact Nat.eq_zero_of_le_zero (h ▸ hn)
  refine ⟨k, hk, hzero, hle, ?_⟩
  intro limit hlimit
  refine ⟨G.splittingAfter weights k, ?_, rfl, rfl, hconv, ?_, ?_⟩
  · -- every such limit is at least one and lets `k` rounds be played
    apply split_of_endsAfter hk limit
    · intro cap hcap
      rcases hlimit cap hcap with h | h <;> omega
    · cases limit with
      | none => exact hn
      | some cap =>
        simp only [Option.map_some, Option.getD_some]
        rcases hlimit cap rfl with h | h <;> omega
  · rw [Splitting.warning, if_pos hconv]
  · exact Splitting.hasUndecided_eq_false_iff.mp hk.1

end StrengthGraph

end Multigrid
