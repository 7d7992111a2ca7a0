import Multigrid.Proofs.Interpolation.Columns
import Multigrid.Proofs.Splitting.Run
import Multigrid.Session

/-!
# Justified labels

A point becomes fine for one of two reasons: its weight is below one, or it has a strong entry in
the column of a point that is coarse at the end of the same round.  Coarse labels are final, so the
second reason holds at the end of every later round as well, wherever the run is cut off.  A point
that stays undecided has a weight of at least one and sees no coarse point.

## Main results

* `StrengthGraph.lt_one_or_exists_coarse_of_fine`: why a point is fine
* `StrengthGraph.exists_coarse_of_split`: the coarse points that a splitting leaves in sight
* `StrengthGraph.labels_justified`: all labels that are not coarse, and what is remarked upon
-/

namespace Multigrid

variable {α Ω R : Type} {n : Nat}

theorem count_toList_eq_card (labels : Vector Label n) (label : Label) :
    labels.toList.count label = (Finset.univ.filter fun i => labels.get i = label).card := by
  rw [toList_eq_map_get, List.count, List.countP_map, List.countP_eq_length_filter]
  rw [← List.toFinset_card_of_nodup ((List.nodup_finRange n).filter _), List.toFinset_filter]
  congr 1
  ext i
  simp

namespace StrengthGraph

variable [Arith Ω] {G : StrengthGraph α n} {weights : Vector Ω n}

section Reasons

variable [WeightOrder Ω] {i : Fin n} {k : Nat}

/-- A fine point weighs less than one, or has a strong entry in the column of a coarse point. -/
theorem lt_one_or_exists_coarse_of_fine (h : (G.labelsAfter weights k).get i = .fine) :
    ¬ 1 ≤ weights.get i ∨
      ∃ j, j ≠ i ∧ G.IsStrong i j ∧ (G.labelsAfter weights k).get j = .coarse := by
  induction k with
  | zero => simp at h
  | succ k ih =>
    rcases Splitting.get_playRound_eq_fine_iff.mp h with hold | ⟨-, hlt⟩ | ⟨-, -, j, hij, hj⟩
    · -- a reason of an earlier round still holds, as no coarse label is taken back
      rcases ih hold with hlt | ⟨j, hne, hij, hj⟩
      · exact .inl hlt
      · exact .inr ⟨j, hne, hij, get_labelsAfter_eq_coarse_of_le (Nat.le_succ k) hj⟩
    · exact .inl hlt
    · refine .inr ⟨j, ?_, hij, hj⟩
      rintro rfl
      cases h.symm.trans hj

end Reasons

/-- The loop plays a round unless there is nothing to label. -/
theorem rounds_pos_of_split {limit : Option Int} {s : Splitting n}
    (h : (G.split weights limit : Except (Fault R) (Splitting n)) = .ok s) (hn : 0 < n) :
    0 < s.rounds := by
  have hlimit := one_le_of_split_eq_ok h
  rw [split_eq_ok limit hlimit] at h
  obtain ⟨m, -, -, heq, -, hend⟩ := exists_refine_eq G weights ((limit.map Int.toNat).getD n) 0
  obtain rfl : G.splittingAfter weights m = s := heq.symm.trans (Except.ok.inj h)
  have hcap : 0 < (limit.map Int.toNat).getD n := by
    cases limit with
    | none => exact hn
    | some cap =>
      have hone := hlimit cap rfl
      simp only [Option.map_some, Option.getD_some]
      omega
  show 0 < m
  by_contra hm
  obtain rfl : m = 0 := by omega
  -- before the first round every point is undecided
  have hnone := Splitting.hasUndecided_eq_false_iff.mp (hend (by omega)) ⟨0, hn⟩
  exact hnone (get_labelsAfter_zero _)

section Split

variable {G : StrengthGraph α n} {weights : Vector Float32 n} {limit : Option Int}
  {s : Splitting n}

theorem labels_of_split (h : (G.split weights limit : Except (Fault R) (Splitting n)) = .ok s) :
    s.labels = G.labelsAfter weights s.rounds :=
  congrArg Splitting.labels (eq_splittingAfter h)

theorem converged_iff_of_split
    (h : (G.split weights limit : Except (Fault R) (Splitting n)) = .ok s) :
    s.converged = true ↔ ∀ i, s.labels.get i ≠ .undecided := by
  rw [← Splitting.hasUndecided_eq_false_iff, eq_splittingAfter h, splittingAfter]
  simp

theorem label_cases_of_split
    (h : (G.split weights limit : Except (Fault R) (Splitting n)) = .ok s) (i : Fin n) :
    s.labels.get i = .undecided ∨ s.labels.get i = .coarse ∨ s.labels.get i = .fine := by
  rw [labels_of_split h]
  exact get_labelsAfter_cases G weights i s.rounds

/-- In a splitting that has converged, a point that weighs at least one and is not coarse has a
strong entry in the column of a coarse point. -/
theorem exists_coarse_of_split
    (h : (G.split weights limit : Except (Fault R) (Splitting n)) = .ok s)
    (hconverged : s.converged = true) {i : Fin n} (hi : s.labels.get i ≠ .coarse)
    (hone : 1 ≤ weights.get i) : ∃ j, G.IsStrong i j ∧ s.labels.get j = .coarse := by
  have hfine := ((label_cases_of_split h i).resolve_left
    ((converged_iff_of_split h).mp hconverged i)).resolve_left hi
  rw [labels_of_split h] at hfine ⊢
  obtain ⟨j, -, hij, hj⟩ :=
    (lt_one_or_exists_coarse_of_fine hfine).resolve_left (not_not.mpr hone)
  exact ⟨j, hij, hj⟩

end Split

/-- Under every limit the loop gives a splitting, all of whose labels that are not coarse are
justified by the labels of the splitting itself.  The splitting has converged if and only if no
point is undecided.  If it has not then there is one remark, which tells the number of undecided
points. -/
theorem labels_justified {G : StrengthGraph α n} {weights : Vector Float32 n} {limit : Option Int}
    (hlimit : ∀ cap ∈ limit, 1 ≤ cap) :
    ∃ s : Splitting n, (G.split weights limit : Except (Fault R) (Splitting n)) = .ok s ∧
      (∀ i, s.labels.get i = .fine → ¬ 1 ≤ weights.get i ∨
        ∃ j, j ≠ i ∧ G.IsStrong i j ∧ s.labels.get j = .coarse) ∧
      (∀ i, s.labels.get i = .undecided → 1 ≤ weights.get i ∧
        ∀ j, G.IsStrong i j → s.labels.get j ≠ .coarse) ∧
      (s.converged = true ↔ ∀ i, s.labels.get i ≠ .undecided) ∧
      ∀ session : Session Float,
        (do
          let s ← Setup.ofResult (G.split weights limit)
          Setup.warn s.warning
          return s : Setup Float (Fault R) (Splitting n)).run session =
        (.ok s, { session with warnings := session.warnings ++
          if s.converged then []
          else [.undecidedRows s.rounds
            (Finset.univ.filter fun i => s.labels.get i = .undecided).card] }) := by
  obtain ⟨s, hs⟩ : ∃ s, (G.split weights limit : Except (Fault R) (Splitting n)) = .ok s :=
    ⟨_, split_eq_ok limit hlimit⟩
  have hlabels := labels_of_split hs
  refine ⟨s, hs, ?_, ?_, converged_iff_of_split hs, ?_⟩
  · intro i hi
    rw [hlabels] at hi ⊢
    exact lt_one_or_exists_coarse_of_fine hi
  · intro i hi
    obtain ⟨k, hk⟩ := Nat.exists_eq_add_one.mpr (rounds_pos_of_split hs (Fin.pos i))
    rw [hlabels, hk] at hi ⊢
    exact ⟨one_le_of_get_labelsAfter hi, fun j hij => ne_coarse_of_get_labelsAfter hi hij⟩
  · intro session
    have hwarning : s.warning.toList = if s.converged then []
        else [.undecidedRows s.rounds
          (Finset.univ.filter fun i => s.labels.get i = .undecided).card] := by
      rw [Splitting.warning, count_toList_eq_card]
      split_ifs <;> rfl
    rw [← hwarning, hs]
    rfl

/-- Three points in a row of which the middle one has strong entries for both others. -/
def fork : StrengthGraph Unit 3 :=
  ofRows fun i => if i = 1 then [⟨⟨0, ()⟩, true⟩, ⟨⟨2, ()⟩, true⟩] else [⟨⟨1, ()⟩, true⟩]

/-- Weights of the fork that grow from its first point to its last one. -/
def forkWeights : Vector Float32 3 := #v[1, 3, 5]

/-- After one round the first point of the fork is undecided, and is remarked upon. -/
theorem fork_undecided_first :
    (∀ cap ∈ some (1 : Int), 1 ≤ cap) ∧
      ∃ s : Splitting 3, (fork.split forkWeights (some 1) : Except (Fault Unit) (Splitting 3)) =
          .ok s ∧
        s.labels = #v[.undecided, .fine, .coarse] ∧
        (1 ≤ forkWeights.get 0 ∧ ∀ j, fork.IsStrong 0 j → s.labels.get j ≠ .coarse) ∧
        (∃ j, j ≠ 1 ∧ fork.IsStrong 1 j ∧ s.labels.get j = .coarse) ∧
        ∀ session : Session Float,
          (do
            let s ← Setup.ofResult (fork.split forkWeights (some 1))
            Setup.warn s.warning
            return s : Setup Float (Fault Unit) (Splitting 3)).run session =
          (.ok s, { session with warnings := session.warnings ++ [.undecidedRows 1 1] }) := by
  have hlimit : ∀ cap ∈ some (1 : Int), 1 ≤ cap := by simp
  have hsplit : fork.split forkWeights (some 1) =
      (.ok ⟨#v[.undecided, .fine, .coarse], 1, false⟩ : Except (Fault Unit) (Splitting 3)) := by
    with_unfolding_all rfl
  obtain ⟨s, hs, hfine, hundecided, -, hrun⟩ :=
    @labels_justified Unit Unit 3 fork forkWeights _ hlimit
  obtain rfl := Except.ok.inj (hs.symm.trans hsplit)
  have hweight : ¬ ¬ 1 ≤ forkWeights.get 1 := by decide
  exact ⟨hlimit, _, hs, rfl, hundecided 0 rfl, (hfine 1 rfl).resolve_left hweight, hrun⟩

end StrengthGraph

end Multigrid
