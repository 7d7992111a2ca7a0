import Multigrid.Proofs.Scalar.Order
import Multigrid.Proofs.Strength.Relation
import Multigrid.Splitting.Rounds

/-!
# The rule of a round

A round runs three passes over the labels.  Seen from a single point it is one rule.  A decided
point keeps its label.  An undecided point of weight below one becomes fine.  An undecided point
of weight at least one becomes coarse, unless it is outweighed: unless some other such point is
strongly connected to it, in either direction, and heavier.  A point that is outweighed becomes
fine if it has a strong entry in the column of a point that is coarse after the round, and stays
undecided otherwise.

## Main definitions

* `Splitting.IsCandidate`: an undecided point of weight at least one
* `Splitting.IsOutweighed`: a heavier candidate is strongly connected to the point

## Main results

* `Splitting.get_playRound_of_decided`, `Splitting.get_playRound_eq_coarse_iff`,
  `Splitting.get_playRound_eq_fine_iff`, `Splitting.get_playRound_eq_undecided_iff`: the rule
-/

namespace Multigrid

variable {α Ω : Type} {n : Nat}

namespace Splitting

variable [Arith Ω] (G : StrengthGraph α n) (weights : Vector Ω n) (labels : Vector Label n)

/-- Point `i` is undecided, with a weight of at least one. -/
def IsCandidate (i : Fin n) : Prop := labels.get i = .undecided ∧ 1 ≤ weights.get i

/-- A heavier candidate is strongly connected to point `i`, in one direction or the other. -/
def IsOutweighed (i : Fin n) : Prop :=
  ∃ j, IsCandidate weights labels j ∧ (G.IsStrong i j ∨ G.IsStrong j i) ∧
    weights.get i < weights.get j

instance (i : Fin n) : Decidable (IsCandidate weights labels i) :=
  inferInstanceAs (Decidable (_ ∧ _))

instance (i : Fin n) : Decidable (IsOutweighed G weights labels i) :=
  inferInstanceAs (Decidable (∃ _, _ ∧ _ ∧ _))

variable {weights labels} in
/-- If there is a candidate then there is one that no candidate outweighs. -/
theorem exists_heaviest [WeightOrder Ω] {i : Fin n} (h : IsCandidate weights labels i) :
    ∃ m, IsCandidate weights labels m ∧
      ∀ j, IsCandidate weights labels j → ¬ weights.get m < weights.get j :=
  (WeightOrder.wellFounded_heavier weights).has_min {i | IsCandidate weights labels i} ⟨i, h⟩

/-! ## Promotion -/

theorem get_promoted (i : Fin n) :
    (promoted weights labels).get i = true ↔ IsCandidate weights labels i := by
  have h : (promoted weights labels).get i = isPromoted (labels.get i) (weights.get i) :=
    Vector.getElem_zipWith i.isLt
  rw [h, isPromoted, decide_eq_true_iff, IsCandidate]

theorem get_promote (i : Fin n) :
    (promote weights labels).get i =
      if IsCandidate weights labels i then .coarse
      else if labels.get i = .undecided then .fine
      else labels.get i := by
  have h : (promote weights labels).get i =
      if isPromoted (labels.get i) (weights.get i) then .coarse
      else if labels.get i = .undecided then .fine
      else labels.get i := Vector.getElem_zipWith i.isLt
  simp only [h, isPromoted, decide_eq_true_iff]
  rfl

/-! ## Withdrawal -/

variable {weights}

/-- Point `i` is the lighter end of a connection between two new points. -/
def IsLighterEnd (weights : Vector Ω n) (new : Vector Bool n) (ends : Fin n × Fin n) (i : Fin n) :
    Prop :=
  new.get ends.1 = true ∧ new.get ends.2 = true ∧
    (i = ends.2 ∧ weights.get ends.2 < weights.get ends.1 ∨
      i = ends.1 ∧ weights.get ends.1 < weights.get ends.2)

instance (weights : Vector Ω n) (new : Vector Bool n) (ends : Fin n × Fin n) (i : Fin n) :
    Decidable (IsLighterEnd weights new ends i) :=
  inferInstanceAs (Decidable (_ ∧ _ ∧ (_ ∨ _)))

theorem get_set (labels : Vector Label n) (i j : Fin n) (x : Label) :
    (labels.set j x).get i = if i = j then x else labels.get i := by
  have h : (labels.set j x).get i = if j.val = i.val then x else labels.get i :=
    Vector.getElem_set j.isLt i.isLt
  simp only [h, Fin.ext_iff, eq_comm]

variable {new : Vector Bool n}

theorem get_withdrawEnd [WeightOrder Ω] (labels : Vector Label n) (ends : Fin n × Fin n)
    (i : Fin n) :
    (withdrawEnd weights new labels ends).get i =
      if IsLighterEnd weights new ends i then .undecided else labels.get i := by
  obtain ⟨a, b⟩ := ends
  unfold withdrawEnd IsLighterEnd
  -- only connections between new points count, and at most one end of those is lighter
  by_cases hnew : new.get a = true ∧ new.get b = true
  · rcases hnew with ⟨ha, hb⟩
    simp only [ha, hb, Bool.and_self, if_true, true_and]
    by_cases hba : weights.get b < weights.get a
    · simp [hba, WeightOrder.lt_asymm hba, get_set]
    · by_cases hab : weights.get a < weights.get b <;> simp [hba, hab, get_set]
  · have hoff : ¬ (new.get a && new.get b) = true := by simpa using hnew
    simp only [if_neg hoff, ← and_assoc]
    rw [if_neg fun h => hnew h.1]

theorem get_foldl_withdrawEnd [WeightOrder Ω] (labels : Vector Label n)
    (pairs : List (Fin n × Fin n)) (i : Fin n) :
    (pairs.foldl (withdrawEnd weights new) labels).get i =
      if ∃ ends ∈ pairs, IsLighterEnd weights new ends i then .undecided else labels.get i := by
  induction pairs generalizing labels with
  | nil => simp
  | cons ends rest ih =>
    -- connections compare weights and marks, which the withdrawals before them leave alone
    rw [List.foldl_cons, ih, get_withdrawEnd]
    by_cases hrest : ∃ ends ∈ rest, IsLighterEnd weights new ends i
    · simp [hrest]
    · by_cases hhead : IsLighterEnd weights new ends i <;> simp [hrest, hhead]

theorem exists_isLighterEnd_iff (weights : Vector Ω n) (labels : Vector Label n) (i : Fin n) :
    (∃ ends ∈ G.strongPairs, IsLighterEnd weights (promoted weights labels) ends i) ↔
      IsCandidate weights labels i ∧ IsOutweighed G weights labels i := by
  simp only [IsLighterEnd, get_promoted, Prod.exists, StrengthGraph.mem_strongPairs]
  -- the connection is stored in the row of either end
  constructor
  · rintro ⟨a, b, hab, ha, hb, ⟨rfl, hlt⟩ | ⟨rfl, hlt⟩⟩
    · exact ⟨hb, a, ha, .inr hab, hlt⟩
    · exact ⟨ha, b, hb, .inl hab, hlt⟩
  · rintro ⟨hi, j, hj, hij | hji, hlt⟩
    · exact ⟨i, j, hij, hi, hj, .inr ⟨rfl, hlt⟩⟩
    · exact ⟨j, i, hji, hj, hi, .inl ⟨rfl, hlt⟩⟩

variable (weights)

/-- The labels after promotion and withdrawal. -/
def contested : Vector Label n :=
  withdraw G weights (promoted weights labels) (promote weights labels)

theorem get_contested [WeightOrder Ω] (i : Fin n) :
    (contested G weights labels).get i =
      if IsCandidate weights labels i then
        if IsOutweighed G weights labels i then .undecided else .coarse
      else if labels.get i = .undecided then .fine
      else labels.get i := by
  have h := exists_isLighterEnd_iff G weights labels i
  rw [contested, withdraw, get_foldl_withdrawEnd, get_promote]
  -- what is withdrawn is a candidate that was promoted before
  simp only [h]
  by_cases hc : IsCandidate weights labels i <;> simp [hc]

/-! ## Closure -/

theorem get_close (labels : Vector Label n) (i : Fin n) :
    (close G labels).get i =
      if labels.get i = .undecided ∧ ∃ j, G.IsStrong i j ∧ labels.get j = .coarse then .fine
      else labels.get i := by
  have h := StrengthGraph.exists_mem_strongRow (G := G) (i := i)
    (p := fun j => labels.get j = .coarse)
  have hget : (close G labels).get i =
      if labels.get i = .undecided ∧ (G.strongRow i).any (labels.get ·.column = .coarse) then .fine
      else labels.get i := Vector.getElem_ofFn i.isLt
  rw [hget]
  simp only [List.any_eq_true, decide_eq_true_eq, h]

/-! ## The rule -/

section Rule

variable {G weights labels} {i : Fin n}

/-- Closure takes no coarse label away and gives none. -/
theorem get_playRound_eq_coarse_iff_contested :
    (playRound G weights labels).get i = .coarse ↔
      (contested G weights labels).get i = .coarse := by
  rw [playRound, ← contested, get_close]
  by_cases h : (contested G weights labels).get i = .undecided ∧
      ∃ j, G.IsStrong i j ∧ (contested G weights labels).get j = .coarse
  · simp [h]
  · rw [if_neg h]

theorem get_playRound :
    (playRound G weights labels).get i =
      if (contested G weights labels).get i = .undecided ∧
          ∃ j, G.IsStrong i j ∧ (playRound G weights labels).get j = .coarse then .fine
      else (contested G weights labels).get i := by
  simp only [get_playRound_eq_coarse_iff_contested]
  rw [playRound, ← contested, get_close]

variable [WeightOrder Ω]

theorem get_playRound_of_decided (h : labels.get i ≠ .undecided) :
    (playRound G weights labels).get i = labels.get i := by
  have hc : ¬ IsCandidate weights labels i := fun hc => h hc.1
  have hi : (contested G weights labels).get i = labels.get i := by
    rw [get_contested, if_neg hc, if_neg h]
  rw [get_playRound, hi, if_neg fun h' => h h'.1]

/-- A point becomes coarse if it is a candidate that is not outweighed. -/
theorem get_playRound_eq_coarse_iff :
    (playRound G weights labels).get i = .coarse ↔
      labels.get i = .coarse ∨
        IsCandidate weights labels i ∧ ¬ IsOutweighed G weights labels i := by
  rw [get_playRound_eq_coarse_iff_contested, get_contested]
  by_cases hc : IsCandidate weights labels i
  · have hi : labels.get i ≠ .coarse := by simp [hc.1]
    by_cases ho : IsOutweighed G weights labels i <;> simp [hc, ho, hi]
  · by_cases hu : labels.get i = .undecided <;> simp [hc, hu]

/-- A candidate stays undecided if it is outweighed and none of its strong entries lies in the
column of a point that is coarse after the round. -/
theorem get_playRound_eq_undecided_iff :
    (playRound G weights labels).get i = .undecided ↔
      IsCandidate weights labels i ∧ IsOutweighed G weights labels i ∧
        ∀ j, G.IsStrong i j → (playRound G weights labels).get j ≠ .coarse := by
  have hi : (contested G weights labels).get i = .undecided ↔
      IsCandidate weights labels i ∧ IsOutweighed G weights labels i := by
    rw [get_contested]
    by_cases hc : IsCandidate weights labels i
    · by_cases ho : IsOutweighed G weights labels i <;> simp [hc, ho]
    · by_cases hu : labels.get i = .undecided <;> simp [hc, hu]
  rw [get_playRound, ← and_assoc, ← hi]
  by_cases hj : ∃ j, G.IsStrong i j ∧ (playRound G weights labels).get j = .coarse
  · obtain ⟨j, hs, hc⟩ := hj
    simp only [hi, ne_eq]
    constructor
    · intro h
      -- next to a coarse point, an undecided point is closed
      split_ifs at h with h'
      exact absurd ⟨hi.mp h, j, hs, hc⟩ h'
    · rintro ⟨-, h⟩
      exact absurd hc (h j hs)
  · rw [if_neg fun h => hj h.2]
    push Not at hj
    exact ⟨fun h => ⟨h, hj⟩, fun h => h.1⟩

/-- A point becomes fine if it is undecided with a weight below one, or if it is an outweighed
candidate with a strong entry in the column of a point that is coarse after the round. -/
theorem get_playRound_eq_fine_iff :
    (playRound G weights labels).get i = .fine ↔
      labels.get i = .fine ∨ labels.get i = .undecided ∧ ¬ 1 ≤ weights.get i ∨
        IsCandidate weights labels i ∧ IsOutweighed G weights labels i ∧
          ∃ j, G.IsStrong i j ∧ (playRound G weights labels).get j = .coarse := by
  rw [get_playRound, get_contested]
  by_cases hc : IsCandidate weights labels i
  · by_cases ho : IsOutweighed G weights labels i <;> simp [hc, ho, hc.1, hc.2]
  · by_cases hu : labels.get i = .undecided
    · have hw : ¬ 1 ≤ weights.get i := fun hw => hc ⟨hu, hw⟩
      simp [hc, hu, hw]
    · simp [hc, hu]

/-- An undecided point gets one of the three labels. -/
theorem get_playRound_cases (h : labels.get i = .undecided) :
    (playRound G weights labels).get i = .undecided ∨
      (playRound G weights labels).get i = .coarse ∨
      (playRound G weights labels).get i = .fine := by
  rw [get_playRound, get_contested]
  split_ifs <;> simp

end Rule

end Splitting

end Multigrid
