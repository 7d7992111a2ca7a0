import Multigrid.Proofs.Splitting.Round

/-!
# Runs of rounds

A run starts with all points undecided and plays one round after the other.  What holds of the
labels after any number of rounds is an invariant of the run: decided points keep their label, the
weight of an undecided point is at least one from the first round on, and an undecided point has no
strong entry in the column of a coarse point.

The loop stops a run after the first round that leaves no point undecided, or at its limit.  Its
result is determined by the number of rounds that it played.

## Main definitions

* `StrengthGraph.labelsAfter`: the labels after a number of rounds
* `StrengthGraph.splittingAfter`: the splitting that a loop gives when it stops there
* `StrengthGraph.EndsAfter`: the rounds after which the loop stops if it has no limit

## Main results

* `StrengthGraph.get_labelsAfter_of_decided`: decided labels are final
* `StrengthGraph.ne_coarse_of_get_labelsAfter`: the neighbourhood of coarse points is closed
* `StrengthGraph.eq_splittingAfter`, `StrengthGraph.split_of_endsAfter`: the result of the loop
-/

namespace Multigrid

variable {α Ω R : Type} {n : Nat}

namespace Splitting

theorem hasUndecided_iff {labels : Vector Label n} :
    hasUndecided labels = true ↔ ∃ i, labels.get i = .undecided := by
  simp only [hasUndecided, Vector.any_eq_true, decide_eq_true_eq]
  exact ⟨fun ⟨i, hi, h⟩ => ⟨⟨i, hi⟩, h⟩, fun ⟨i, h⟩ => ⟨i, i.isLt, h⟩⟩

theorem hasUndecided_eq_false_iff {labels : Vector Label n} :
    hasUndecided labels = false ↔ ∀ i, labels.get i ≠ .undecided := by
  rw [← Bool.not_eq_true, hasUndecided_iff, not_exists]

end Splitting

namespace StrengthGraph

variable [Arith Ω] (G : StrengthGraph α n) (weights : Vector Ω n)

/-- The labels after `k` rounds. -/
def labelsAfter : (k : Nat) → Vector Label n
  | 0 => .replicate n .undecided
  | k + 1 => Splitting.playRound G weights (labelsAfter k)

/-- The splitting of a loop that stops after `k` rounds. -/
def splittingAfter (k : Nat) : Splitting n :=
  ⟨G.labelsAfter weights k, k, !Splitting.hasUndecided (G.labelsAfter weights k)⟩

/-- No point is undecided after `k` rounds, and after any smaller number of rounds one is. -/
def EndsAfter (k : Nat) : Prop :=
  Splitting.hasUndecided (G.labelsAfter weights k) = false ∧
    ∀ j < k, Splitting.hasUndecided (G.labelsAfter weights j) = true

variable {G weights}

@[simp] theorem get_labelsAfter_zero (i : Fin n) :
    (G.labelsAfter weights 0).get i = .undecided :=
  Vector.getElem_replicate i.isLt

/-! ## Invariants of a run -/

section Invariants

variable [WeightOrder Ω] {i : Fin n} {k m : Nat}

/-- A point that is decided after some rounds keeps its label from then on. -/
theorem get_labelsAfter_of_decided (hkm : k ≤ m)
    (h : (G.labelsAfter weights k).get i ≠ .undecided) :
    (G.labelsAfter weights m).get i = (G.labelsAfter weights k).get i := by
  induction hkm with
  | refl => rfl
  | step _ ih =>
    rw [labelsAfter, Splitting.get_playRound_of_decided (by rwa [ih]), ih]

theorem get_labelsAfter_eq_coarse_of_le (hkm : k ≤ m)
    (h : (G.labelsAfter weights k).get i = .coarse) :
    (G.labelsAfter weights m).get i = .coarse := by
  rw [get_labelsAfter_of_decided hkm (by simp [h]), h]

theorem get_labelsAfter_eq_undecided_of_le (hkm : k ≤ m)
    (h : (G.labelsAfter weights m).get i = .undecided) :
    (G.labelsAfter weights k).get i = .undecided := by
  by_contra hk
  exact hk ((get_labelsAfter_of_decided hkm hk).symm.trans h)

/-- After the first round, undecided points weigh at least one. -/
theorem one_le_of_get_labelsAfter (h : (G.labelsAfter weights (k + 1)).get i = .undecided) :
    1 ≤ weights.get i :=
  (Splitting.get_playRound_eq_undecided_iff.mp h).1.2

/-- An undecided point has no strong entry in the column of a coarse point. -/
theorem ne_coarse_of_get_labelsAfter (h : (G.labelsAfter weights k).get i = .undecided)
    {j : Fin n} (hij : G.IsStrong i j) : (G.labelsAfter weights k).get j ≠ .coarse := by
  cases k with
  | zero => simp
  | succ k => exact (Splitting.get_playRound_eq_undecided_iff.mp h).2.2 j hij

variable (G weights) in
theorem get_labelsAfter_cases (i : Fin n) (k : Nat) :
    (G.labelsAfter weights k).get i = .undecided ∨ (G.labelsAfter weights k).get i = .coarse ∨
      (G.labelsAfter weights k).get i = .fine := by
  induction k with
  | zero => simp
  | succ k ih =>
    by_cases hu : (G.labelsAfter weights k).get i = .undecided
    · exact Splitting.get_playRound_cases hu
    · rw [get_labelsAfter_of_decided (Nat.le_succ k) hu]
      exact ih

end Invariants

/-! ## The loop -/

variable (G weights) in
/-- A loop that goes on from `k` rounds stops at the first that leaves no point undecided, or at its
limit. -/
theorem exists_refine_eq (limit k : Nat) :
    ∃ m, k ≤ m ∧ m ≤ k + limit ∧
      G.refine weights (G.labelsAfter weights k) k limit = G.splittingAfter weights m ∧
      (∀ j, k ≤ j → j < m → Splitting.hasUndecided (G.labelsAfter weights j) = true) ∧
      (m < k + limit → Splitting.hasUndecided (G.labelsAfter weights m) = false) := by
  induction limit generalizing k with
  | zero => exact ⟨k, le_rfl, le_rfl, rfl, fun j h h' => absurd h (by omega), fun h => by omega⟩
  | succ limit ih =>
    by_cases hu : Splitting.hasUndecided (G.labelsAfter weights k) = true
    · -- one more round is played, and the loop goes on from there
      obtain ⟨m, hkm, hm, heq, hbefore, hend⟩ := ih (k + 1)
      refine ⟨m, by omega, by omega, ?_, ?_, fun h => hend (by omega)⟩
      · rw [refine, if_pos hu]
        exact heq
      · intro j hj hjm
        rcases Nat.eq_or_lt_of_le hj with rfl | hlt
        · exact hu
        · exact hbefore j hlt hjm
    · refine ⟨k, le_rfl, by omega, ?_, fun j h h' => absurd h (by omega),
        fun _ => by simpa using hu⟩
      rw [refine, if_neg hu, splittingAfter]
      simp [hu]

theorem split_eq_ok (limit : Option Int) (h : ∀ cap ∈ limit, 1 ≤ cap) :
    (G.split weights limit : Except (Fault R) (Splitting n)) =
      .ok (G.refine weights (G.labelsAfter weights 0) 0 ((limit.map Int.toNat).getD n)) := by
  have hcheck : (checkRounds limit : Except (Fault R) Unit) = .ok () := by
    rw [checkRounds, if_neg]
    cases limit with
    | none => simp
    | some cap => simpa using h cap rfl
  rw [split, hcheck]
  rfl

theorem one_le_of_split_eq_ok {limit : Option Int} {s : Splitting n}
    (h : (G.split weights limit : Except (Fault R) (Splitting n)) = .ok s) :
    ∀ cap ∈ limit, 1 ≤ cap := by
  rintro cap rfl
  by_contra hcap
  have hcheck : (checkRounds (some cap) : Except (Fault R) Unit) = .error .roundLimitTooSmall := by
    rw [checkRounds, if_pos (by simpa using hcap)]
  rw [split, hcheck] at h
  cases h

/-- The result of a loop is determined by the number of rounds that it played. -/
theorem eq_splittingAfter {limit : Option Int} {s : Splitting n}
    (h : (G.split weights limit : Except (Fault R) (Splitting n)) = .ok s) :
    s = G.splittingAfter weights s.rounds := by
  rw [split_eq_ok limit (one_le_of_split_eq_ok h)] at h
  obtain ⟨m, -, -, heq, -⟩ := exists_refine_eq G weights
    ((limit.map Int.toNat).getD n) 0
  rw [heq] at h
  cases h
  rfl

/-- A loop whose limit it can reach stops where the loop without a limit does. -/
theorem split_of_endsAfter {k : Nat} (hk : G.EndsAfter weights k) (limit : Option Int)
    (h : ∀ cap ∈ limit, 1 ≤ cap) (hle : k ≤ (limit.map Int.toNat).getD n) :
    (G.split weights limit : Except (Fault R) (Splitting n)) =
      .ok (G.splittingAfter weights k) := by
  obtain ⟨m, -, hm, heq, hbefore, hend⟩ := exists_refine_eq G weights
    ((limit.map Int.toNat).getD n) 0
  rw [split_eq_ok limit h, heq]
  have hmk : m = k := by
    -- stopping before is stopping at the limit, and stopping later is passing a settled round
    rcases Nat.lt_trichotomy m k with hlt | heq | hlt
    · have hu := hk.2 m hlt
      rw [hend (by omega)] at hu
      cases hu
    · exact heq
    · have hu := hbefore k (Nat.zero_le k) hlt
      rw [hk.1] at hu
      cases hu
  rw [hmk]

end StrengthGraph

end Multigrid
