import Multigrid.Proofs.Splitting.Justification
import Multigrid.Proofs.Splitting.Termination

/-!
# Runs under different limits

Within a round a label may move to coarse and back, but only that of a point which was undecided
when the round began.  Runs of one graph under different limits therefore pass through the same
labels, and the run under the smaller limit is the beginning of the other.  What it decides stays
decided, and once it has decided everything there is nothing left for a larger limit to change.

No round is in vain.  If some undecided point weighs at least one then the heaviest of them becomes
coarse, and otherwise all of them become fine.

## Main definitions

* `Splitting.undecided`: the undecided points of a labelling

## Main results

* `StrengthGraph.undecided_succ_ssubset`: every round decides a point
* `StrengthGraph.split_eq_splittingAfter_min`: the rounds that are played under a limit
* `StrengthGraph.decided_labels_final`: runs under two limits compared
-/

namespace Multigrid

variable {α Ω R : Type} {n : Nat}

namespace Splitting

/-- The undecided points. -/
def undecided (labels : Vector Label n) : Finset (Fin n) :=
  Finset.univ.filter fun i => labels.get i = .undecided

@[simp] theorem mem_undecided {labels : Vector Label n} {i : Fin n} :
    i ∈ undecided labels ↔ labels.get i = .undecided := by
  simp [undecided]

variable [Arith Ω] [WeightOrder Ω] {G : StrengthGraph α n} {weights : Vector Ω n}
  {labels : Vector Label n}

theorem undecided_playRound_subset :
    undecided (playRound G weights labels) ⊆ undecided labels := by
  intro i hi
  rw [mem_undecided] at hi ⊢
  exact (get_playRound_eq_undecided_iff.mp hi).1.1

variable (G weights) in
/-- A round that finds an undecided point decides one. -/
theorem exists_decided_of_hasUndecided (h : hasUndecided labels = true) :
    ∃ i, labels.get i = .undecided ∧ (playRound G weights labels).get i ≠ .undecided := by
  obtain ⟨i, hi⟩ := hasUndecided_iff.mp h
  by_cases hc : IsCandidate weights labels i
  · -- the heaviest candidate is not withdrawn, since only a heavier one could outweigh it
    obtain ⟨m, hm, hmax⟩ := exists_heaviest hc
    refine ⟨m, hm.1, fun hu => ?_⟩
    obtain ⟨-, ⟨j, hj, -, hlt⟩, -⟩ := get_playRound_eq_undecided_iff.mp hu
    exact hmax j hj hlt
  · -- what is not promoted becomes fine, and only promoted points become undecided again
    exact ⟨i, hi, fun hu => hc (get_playRound_eq_undecided_iff.mp hu).1⟩

theorem undecided_playRound_ssubset (h : hasUndecided labels = true) :
    undecided (playRound G weights labels) ⊂ undecided labels := by
  obtain ⟨i, hi, hdecided⟩ := exists_decided_of_hasUndecided G weights h
  apply (Finset.ssubset_iff_of_subset undecided_playRound_subset).mpr
  exact ⟨i, mem_undecided.mpr hi, fun hmem => hdecided (mem_undecided.mp hmem)⟩

end Splitting

namespace StrengthGraph

section Rounds

variable [Arith Ω] {G : StrengthGraph α n} {weights : Vector Ω n} {k m e : Nat}

/-- Under a limit, the loop plays that many rounds or stops earlier, where the rounds end. -/
theorem split_eq_splittingAfter_min (he : G.EndsAfter weights e) (limit : Option Int)
    (h : ∀ cap ∈ limit, 1 ≤ cap) :
    (G.split weights limit : Except (Fault R) (Splitting n)) =
      .ok (G.splittingAfter weights (min ((limit.map Int.toNat).getD n) e)) := by
  rcases Nat.le_total e ((limit.map Int.toNat).getD n) with hle | hle
  · rw [Nat.min_eq_right hle]
    exact split_of_endsAfter he limit h hle
  · obtain ⟨m, -, hm, heq, -, hend⟩ := exists_refine_eq G weights
      ((limit.map Int.toNat).getD n) 0
    -- the loop stops before its limit only where the rounds end
    have hmin : m = min ((limit.map Int.toNat).getD n) e := by
      rw [Nat.min_eq_left hle]
      by_contra hne
      have hopen := he.2 m (by omega)
      rw [hend (by omega)] at hopen
      cases hopen
    rw [split_eq_ok limit h, heq, hmin]

theorem converged_splittingAfter_iff (he : G.EndsAfter weights e) (hk : k ≤ e) :
    (G.splittingAfter weights k).converged = true ↔ k = e := by
  rw [splittingAfter, Bool.not_eq_true']
  constructor
  · -- all rounds before the last one leave some point undecided
    intro hdone
    by_contra hne
    have hopen := he.2 k (by omega)
    rw [hdone] at hopen
    cases hopen
  · rintro rfl
    exact he.1

variable [WeightOrder Ω]

theorem undecided_succ_ssubset (h : Splitting.hasUndecided (G.labelsAfter weights k) = true) :
    Splitting.undecided (G.labelsAfter weights (k + 1)) ⊂
      Splitting.undecided (G.labelsAfter weights k) :=
  Splitting.undecided_playRound_ssubset h

/-- Until the rounds end, any number of them shrinks the set of undecided points. -/
theorem undecided_ssubset_of_lt (he : G.EndsAfter weights e) (hkm : k < m) (hm : m ≤ e) :
    Splitting.undecided (G.labelsAfter weights m) ⊂
      Splitting.undecided (G.labelsAfter weights k) := by
  induction hkm with
  | refl => exact undecided_succ_ssubset (he.2 k (by omega))
  | @step m hkm ih =>
    exact (undecided_succ_ssubset (he.2 m (by omega))).trans (ih (by omega))

end Rounds

/-- Under a limit the loop gives the labels after some rounds, and under a larger limit or none it
gives those after at least as many rounds.  Points that are decided under the smaller limit have the
same label under the larger one.  The undecided points become fewer with every round that is played.
If the loop converges under the smaller limit then it gives the same splitting under the larger. -/
theorem decided_labels_final (G : StrengthGraph α n) (weights : Vector Float32 n) (cap : Int)
    (limit : Option Int) (hcap : 1 ≤ cap) (hlimit : ∀ larger ∈ limit, cap ≤ larger) :
    ∃ s s' : Splitting n,
      (G.split weights (some cap) : Except (Fault R) (Splitting n)) = .ok s ∧
      (G.split weights limit : Except (Fault R) (Splitting n)) = .ok s' ∧
      s.labels = G.labelsAfter weights s.rounds ∧ s'.labels = G.labelsAfter weights s'.rounds ∧
      s.rounds ≤ s'.rounds ∧
      (∀ i, s.labels.get i ≠ .undecided → s'.labels.get i = s.labels.get i) ∧
      (∀ k < s'.rounds, Splitting.undecided (G.labelsAfter weights (k + 1)) ⊂
        Splitting.undecided (G.labelsAfter weights k)) ∧
      (s.rounds < s'.rounds → Splitting.undecided s'.labels ⊂ Splitting.undecided s.labels) ∧
      (s.converged = true → s' = s ∧ s'.converged = true) := by
  obtain ⟨e, he, hn, -⟩ := exists_endsAfter G weights
  have hvalid : ∀ larger ∈ limit, 1 ≤ larger := by
    intro larger hl
    exact hcap.trans (hlimit larger hl)
  have hsplit := split_eq_splittingAfter_min (R := R) he (some cap) (by simpa using hcap)
  have hsplit' := split_eq_splittingAfter_min (R := R) he limit hvalid
  -- both runs stop on the way to the end of the rounds, the one under `cap` first
  set k := min (((some cap).map Int.toNat).getD n) e with hk
  set m := min ((limit.map Int.toNat).getD n) e with hm
  have hkm : k ≤ m := by
    cases limit with
    | none => exact le_min ((Nat.min_le_right _ _).trans hn) (Nat.min_le_right _ _)
    | some larger =>
      have hle := hlimit larger rfl
      simp only [hk, hm, Option.map_some, Option.getD_some]
      omega
  have hme : m ≤ e := Nat.min_le_right _ _
  refine ⟨_, _, hsplit, hsplit', rfl, rfl, hkm, ?_, ?_, ?_, ?_⟩
  · intro i hi
    exact get_labelsAfter_of_decided hkm hi
  · intro r hr
    exact undecided_succ_ssubset (he.2 r (lt_of_lt_of_le hr hme))
  · intro hlt
    exact undecided_ssubset_of_lt he hlt hme
  · intro hconverged
    have hke := (converged_splittingAfter_iff he (hkm.trans hme)).mp hconverged
    have heq : m = k := by omega
    rw [heq]
    exact ⟨rfl, hconverged⟩

/-- The fork is split after two rounds, of which the first leaves one point undecided. -/
theorem fork_decided_final :
    (∃ s s' : Splitting 3,
      (1 : Int) ≤ 1 ∧ (∀ larger ∈ some (2 : Int), 1 ≤ larger) ∧
      (fork.split forkWeights (some 1) : Except (Fault Unit) (Splitting 3)) = .ok s ∧
      (fork.split forkWeights (some 2) : Except (Fault Unit) (Splitting 3)) = .ok s' ∧
      s.labels = #v[.undecided, .fine, .coarse] ∧ s'.labels = #v[.coarse, .fine, .coarse] ∧
      s'.labels.get 1 = s.labels.get 1 ∧ s'.labels.get 2 = s.labels.get 2 ∧
      Splitting.undecided s'.labels ⊂ Splitting.undecided s.labels) ∧
    ∃ s s' : Splitting 3,
      (1 : Int) ≤ 2 ∧ (∀ larger ∈ (none : Option Int), 2 ≤ larger) ∧
      (fork.split forkWeights (some 2) : Except (Fault Unit) (Splitting 3)) = .ok s ∧
      (fork.split forkWeights none : Except (Fault Unit) (Splitting 3)) = .ok s' ∧
      s.converged = true ∧ s' = s := by
  have hone : fork.split forkWeights (some 1) =
      (.ok ⟨#v[.undecided, .fine, .coarse], 1, false⟩ : Except (Fault Unit) (Splitting 3)) := by
    with_unfolding_all rfl
  have htwo : fork.split forkWeights (some 2) =
      (.ok ⟨#v[.coarse, .fine, .coarse], 2, true⟩ : Except (Fault Unit) (Splitting 3)) := by
    with_unfolding_all rfl
  constructor
  · obtain ⟨s, s', hs, hs', -, -, -, hkeep, -, hshrink, -⟩ :=
      decided_labels_final (R := Unit) fork forkWeights 1 (some 2) (by decide) (by simp)
    obtain rfl := Except.ok.inj (hs.symm.trans hone)
    obtain rfl := Except.ok.inj (hs'.symm.trans htwo)
    exact ⟨_, _, by decide, by simp, hone, htwo, rfl, rfl, hkeep 1 (by decide),
      hkeep 2 (by decide), hshrink (by decide)⟩
  · obtain ⟨s, s', hs, hs', -, -, -, -, -, -, hsame⟩ :=
      decided_labels_final (R := Unit) fork forkWeights 2 none (by decide) (by simp)
    obtain rfl := Except.ok.inj (hs.symm.trans htwo)
    exact ⟨_, s', by decide, by simp, htwo, hs', rfl, (hsame rfl).1⟩

end StrengthGraph

end Multigrid
