import Multigrid.Proofs.Splitting.Termination

/-!
# Rounds and the greedy choice

On a symmetric strong relation whose neighbours differ in weight, the rounds decide in parallel
what one sequential scan decides.  The scan visits the points of weight at least one from the
heaviest to the lightest, and makes a point coarse unless a neighbour is coarse already.

The points that the scan chooses are the solution of one condition: a point is chosen if and only
if its weight is at least one and no heavier neighbour is chosen.  Every label that the rounds give
agrees with that solution.  When a candidate is not outweighed, each heavier neighbour is fine by
then and hence not chosen; when a point becomes fine next to a coarse one, that one is chosen, and
one of the two is the heavier.

## Main definitions

* `StrengthGraph.greedySet`, `StrengthGraph.greedyLabels`: the scan and the labels that it gives
* `IsVisitOrder`, `visitOrder`: the points of weight at least one by decreasing weight

## Main results

* `StrengthGraph.mem_greedySet_iff`: the condition whose solution is the choice of the scan
* `StrengthGraph.split_eq_greedyLabels`: a converged splitting has the labels of the scan
-/

namespace Multigrid

variable {α Ω R : Type} {n : Nat}

/-! ## Visit orders -/

/-- A list of the points of weight at least one, each of them once and none after a lighter one. -/
structure IsVisitOrder [Arith Ω] (weights : Vector Ω n) (order : List (Fin n)) : Prop where
  /-- No point is visited twice. -/
  nodup : order.Nodup
  /-- The points visited are those of weight at least one. -/
  mem_iff (i : Fin n) : i ∈ order ↔ 1 ≤ weights.get i
  /-- Weights do not increase. -/
  decreasing : order.Pairwise fun i j => ¬ weights.get i < weights.get j

section VisitOrder

variable [Arith Ω] (weights : Vector Ω n)

/-- The points of weight at least one. -/
def heavyPoints : List (Fin n) := (List.finRange n).filter fun i => 1 ≤ weights.get i

variable {weights}

theorem mem_heavyPoints {i : Fin n} : i ∈ heavyPoints weights ↔ 1 ≤ weights.get i := by
  simp [heavyPoints]

/-- Is the first of two points no lighter than the second? -/
def noLighter (a b : {i // i ∈ heavyPoints weights}) : Bool := ¬ weights.get a < weights.get b

variable (weights) in
/-- The points of weight at least one, sorted by decreasing weight. -/
def visitOrder : List (Fin n) :=
  ((heavyPoints weights).attach.mergeSort noLighter).map Subtype.val

variable [WeightOrder Ω]

theorem noLighter_trans (a b c : {i // i ∈ heavyPoints weights}) (hab : noLighter a b)
    (hbc : noLighter b c) : noLighter a c := by
  simp only [noLighter, decide_eq_true_eq] at hab hbc ⊢
  intro hac
  -- below one the order is not total, but the points compared here are heavy
  rcases WeightOrder.lt_trichotomy (mem_heavyPoints.mp a.2) (mem_heavyPoints.mp b.2) with h | h | h
  · exact hab h
  · exact hbc (h ▸ hac)
  · exact hbc (WeightOrder.lt_trans h hac)

theorem noLighter_total (a b : {i // i ∈ heavyPoints weights}) :
    noLighter a b || noLighter b a := by
  simp only [noLighter, Bool.or_eq_true, decide_eq_true_eq]
  by_cases h : weights.get a < weights.get b
  · exact .inr (WeightOrder.lt_asymm h)
  · exact .inl h

variable (weights) in
theorem isVisitOrder_visitOrder : IsVisitOrder weights (visitOrder weights) := by
  have hperm := List.mergeSort_perm (heavyPoints weights).attach noLighter
  refine ⟨?_, ?_, ?_⟩
  · apply List.Nodup.map Subtype.val_injective
    apply hperm.nodup_iff.mpr
    exact List.nodup_attach.mpr ((List.nodup_finRange n).filter _)
  · intro i
    rw [visitOrder, (hperm.map Subtype.val).mem_iff, List.attach_map_subtype_val, mem_heavyPoints]
  · rw [visitOrder, List.pairwise_map]
    refine (List.pairwise_mergeSort noLighter_trans noLighter_total _).imp fun h => ?_
    simpa [noLighter] using h

end VisitOrder

namespace StrengthGraph

/-! ## The scan -/

section Scan

variable (G : StrengthGraph α n)

/-- Chooses point `i`, unless it has a strong entry in the column of a point chosen before. -/
def greedyStep (chosen : List (Fin n)) (i : Fin n) : List (Fin n) :=
  if ∃ j ∈ chosen, G.IsStrong i j then chosen else i :: chosen

/-- The points that a scan chooses when it visits points in the given order. -/
def greedySet (order : List (Fin n)) : List (Fin n) := order.foldl G.greedyStep []

/-- The chosen points are coarse, all others fine. -/
def greedyLabels (order : List (Fin n)) : Vector Label n :=
  Vector.ofFn fun i => if i ∈ G.greedySet order then .coarse else .fine

theorem get_greedyLabels (order : List (Fin n)) (i : Fin n) :
    (G.greedyLabels order).get i = if i ∈ G.greedySet order then .coarse else .fine :=
  Vector.getElem_ofFn i.isLt

theorem greedySet_append_singleton (order : List (Fin n)) (i : Fin n) :
    G.greedySet (order ++ [i]) = G.greedyStep (G.greedySet order) i := by
  simp [greedySet]

theorem greedySet_subset (order : List (Fin n)) : G.greedySet order ⊆ order := by
  induction order using List.reverseRecOn with
  | nil => simp [greedySet]
  | append_singleton order i ih =>
    rw [greedySet_append_singleton, greedyStep]
    split_ifs
    · exact List.subset_append_of_subset_left _ ih
    · exact List.cons_subset.mpr ⟨by simp, List.subset_append_of_subset_left _ ih⟩

end Scan

/-- Strongly connected points of weight at least one differ in weight. -/
def HasDistinctNeighbours [Arith Ω] (G : StrengthGraph α n) (weights : Vector Ω n) : Prop :=
  ∀ i j, i ≠ j → G.IsStrong i j → 1 ≤ weights.get i → 1 ≤ weights.get j →
    weights.get i ≠ weights.get j

section Agreement

variable [Arith Ω] [WeightOrder Ω] {G : StrengthGraph α n} {weights : Vector Ω n}

/-- Of all points visited, the scan chooses those that no heavier neighbour keeps from it. -/
theorem mem_greedySet_iff_of_pairwise (hdistinct : G.HasDistinctNeighbours weights)
    {order : List (Fin n)} (hnodup : order.Nodup) (hone : ∀ i ∈ order, 1 ≤ weights.get i)
    (hdecr : order.Pairwise fun i j => ¬ weights.get i < weights.get j) (i : Fin n) :
    i ∈ G.greedySet order ↔
      i ∈ order ∧ ∀ j ∈ G.greedySet order, G.IsStrong i j → ¬ weights.get i < weights.get j := by
  induction order using List.reverseRecOn generalizing i with
  | nil => simp [greedySet]
  | append_singleton order x ih =>
    have hx : x ∉ order := by
      intro hx
      exact (List.nodup_append.mp hnodup).2.2 x hx x (by simp) rfl
    have hbefore : ∀ j ∈ order, ¬ weights.get j < weights.get x :=
      fun j hj => (List.pairwise_append.mp hdecr).2.2 j hj x (by simp)
    have hmem := ih (List.nodup_append.mp hnodup).1
      (fun j hj => hone j (List.mem_append_left _ hj)) (List.pairwise_append.mp hdecr).1
    have hsub := G.greedySet_subset order
    rw [greedySet_append_singleton, greedyStep, List.mem_append, List.mem_singleton]
    by_cases hblocked : ∃ j ∈ G.greedySet order, G.IsStrong x j
    · -- the neighbour that keeps `x` from being chosen comes before it and is heavier
      rw [if_pos hblocked]
      obtain ⟨j, hj, hxj⟩ := hblocked
      have hlt : weights.get x < weights.get j := by
        have hne : x ≠ j := fun h => hx (h ▸ hsub hj)
        have hone' := hone j (List.mem_append_left _ (hsub hj))
        rcases WeightOrder.lt_trichotomy (hone x (by simp)) hone' with h | h | h
        · exact h
        · exact absurd h (hdistinct x j hne hxj (hone x (by simp)) hone')
        · exact absurd h (hbefore j (hsub hj))
      by_cases hix : i = x
      · subst hix
        exact ⟨fun h => absurd (hsub h) hx, fun h => absurd hlt (h.2 j hj hxj)⟩
      · simp only [hix, or_false]
        exact hmem i
    · -- `x` is chosen, and is no heavier neighbour of a point before it
      rw [if_neg hblocked]
      push Not at hblocked
      simp only [List.mem_cons, forall_eq_or_imp]
      by_cases hix : i = x
      · subst hix
        simp only [true_or, or_true, true_and, true_iff]
        exact ⟨fun _ => WeightOrder.lt_irrefl _, fun j hj hij => absurd hij (hblocked j hj)⟩
      · simp only [hix, false_or, or_false, hmem i]
        exact ⟨fun h => ⟨h.1, fun _ => hbefore i h.1, h.2⟩, fun h => ⟨h.1, h.2.2⟩⟩

/-- The scan chooses the points of weight at least one that have no heavier chosen neighbour. -/
theorem mem_greedySet_iff (hdistinct : G.HasDistinctNeighbours weights) {order : List (Fin n)}
    (horder : IsVisitOrder weights order) (i : Fin n) :
    i ∈ G.greedySet order ↔
      1 ≤ weights.get i ∧
        ∀ j ∈ G.greedySet order, G.IsStrong i j → ¬ weights.get i < weights.get j := by
  rw [mem_greedySet_iff_of_pairwise hdistinct horder.nodup
    (fun i hi => (horder.mem_iff i).mp hi) horder.decreasing, horder.mem_iff]

/-- After any number of rounds, coarse points are chosen by the scan and fine points are not. -/
theorem labelsAfter_agrees (hsymm : G.IsSymmetric) (hdistinct : G.HasDistinctNeighbours weights)
    {order : List (Fin n)} (horder : IsVisitOrder weights order) (k : Nat) (i : Fin n) :
    ((G.labelsAfter weights k).get i = .coarse → i ∈ G.greedySet order) ∧
      ((G.labelsAfter weights k).get i = .fine → i ∉ G.greedySet order) := by
  have hchosen := mem_greedySet_iff hdistinct horder
  induction k generalizing i with
  | zero => simp
  | succ k ih =>
    have hcoarse (i : Fin n) (h : (G.labelsAfter weights (k + 1)).get i = .coarse) :
        i ∈ G.greedySet order := by
      rcases Splitting.get_playRound_eq_coarse_iff.mp h with hold | ⟨⟨hu, hw⟩, ho⟩
      · exact (ih i).1 hold
      · refine (hchosen i).mpr ⟨hw, ?_⟩
        intro j hj hij hlt
        -- a heavier chosen neighbour would outweigh `i`, or have closed it, or is not chosen
        rcases get_labelsAfter_cases G weights j k with hj' | hj' | hj'
        · exact ho ⟨j, ⟨hj', ((hchosen j).mp hj).1⟩, .inl hij, hlt⟩
        · exact ne_coarse_of_get_labelsAfter hu hij hj'
        · exact (ih j).2 hj' hj
    refine ⟨hcoarse i, ?_⟩
    intro hfine hi
    rcases Splitting.get_playRound_eq_fine_iff.mp hfine with hold | ⟨-, hw⟩ | ⟨-, -, j, hij, hj⟩
    · exact (ih i).2 hold hi
    · exact hw ((hchosen i).mp hi).1
    · have hne : i ≠ j := by
        rintro rfl
        have h := hfine.symm.trans hj
        cases h
      -- both ends of the connection are chosen, so neither is the heavier one
      obtain ⟨hwi, hnoti⟩ := (hchosen i).mp hi
      obtain ⟨hwj, hnotj⟩ := (hchosen j).mp (hcoarse j hj)
      rcases WeightOrder.lt_trichotomy hwi hwj with hlt | heq | hlt
      · exact hnoti j (hcoarse j hj) hij hlt
      · exact hdistinct i j hne hij hwi hwj heq
      · exact hnotj i hi ((hsymm i j).mp hij) hlt

theorem labelsAfter_eq_greedyLabels (hsymm : G.IsSymmetric)
    (hdistinct : G.HasDistinctNeighbours weights) {order : List (Fin n)}
    (horder : IsVisitOrder weights order) {k : Nat}
    (hk : Splitting.hasUndecided (G.labelsAfter weights k) = false) :
    G.labelsAfter weights k = G.greedyLabels order := by
  have hget (i : Fin n) : (G.labelsAfter weights k).get i = (G.greedyLabels order).get i := by
    obtain ⟨hc, hf⟩ := labelsAfter_agrees hsymm hdistinct horder k i
    rw [get_greedyLabels]
    rcases get_labelsAfter_cases G weights i k with h | h | h
    · exact absurd h (Splitting.hasUndecided_eq_false_iff.mp hk i)
    · rw [h, if_pos (hc h)]
    · rw [h, if_neg (hf h)]
  exact Vector.ext fun i hi => hget ⟨i, hi⟩

end Agreement

/-- On a symmetric strong relation whose neighbours of weight at least one differ in weight, a loop
without a limit converges, and every loop that converges gives the labels of the scan.  There is an
order for the scan to visit the points in, and the labels are the same for any of them. -/
theorem split_eq_greedyLabels {G : StrengthGraph α n} {weights : Vector Float32 n}
    (hsymm : G.IsSymmetric) (hdistinct : G.HasDistinctNeighbours weights) :
    (∃ order, IsVisitOrder weights order) ∧
    ∀ order, IsVisitOrder weights order →
      (∃ s : Splitting n, (G.split weights none : Except (Fault R) (Splitting n)) = .ok s ∧
        s.converged = true ∧ s.labels = G.greedyLabels order) ∧
      ∀ (limit : Option Int) (s : Splitting n),
        (G.split weights limit : Except (Fault R) (Splitting n)) = .ok s → s.converged = true →
          s.labels = G.greedyLabels order := by
  refine ⟨⟨_, isVisitOrder_visitOrder weights⟩, ?_⟩
  intro order horder
  have hall : ∀ (limit : Option Int) (s : Splitting n),
      (G.split weights limit : Except (Fault R) (Splitting n)) = .ok s → s.converged = true →
        s.labels = G.greedyLabels order := by
    intro limit s hs hconv
    rw [eq_splittingAfter hs] at hconv ⊢
    exact labelsAfter_eq_greedyLabels hsymm hdistinct horder (by simpa [splittingAfter] using hconv)
  obtain ⟨k, hk, hle, -⟩ := exists_endsAfter G weights
  have hs := @split_of_endsAfter _ _ R _ _ G weights k hk none (by simp) hle
  have hconv : (G.splittingAfter weights k).converged = true := by simp [splittingAfter, hk.1]
  exact ⟨⟨_, hs, hconv, hall none _ hs hconv⟩, hall⟩

/-- Three points in a row, each strongly connected to its neighbours. -/
def path : StrengthGraph Unit 3 :=
  ofRows fun i => (List.finRange 3).map fun j => ⟨⟨j, ()⟩, i.val = j + 1 ∨ j.val = i + 1⟩

/-- Weights that grow along the path. -/
def pathWeights : Vector Float32 3 := #v[1, 2, 3]

theorem path_coarse_ends :
    path.IsSymmetric ∧ path.HasDistinctNeighbours pathWeights ∧
      IsVisitOrder pathWeights [2, 1, 0] ∧
      ∃ s : Splitting 3, (path.split pathWeights none : Except (Fault Unit) (Splitting 3)) = .ok s ∧
        s.converged = true ∧ s.labels = #v[.coarse, .fine, .coarse] := by
  have hsymm : path.IsSymmetric := by decide +kernel
  have hdistinct : path.HasDistinctNeighbours pathWeights := by
    unfold HasDistinctNeighbours
    decide +kernel
  have horder : IsVisitOrder pathWeights [2, 1, 0] := ⟨by decide, by decide, by decide⟩
  obtain ⟨s, hs, hconv, hlabels⟩ := ((split_eq_greedyLabels hsymm hdistinct).2 _ horder).1
  exact ⟨hsymm, hdistinct, horder, s, hs, hconv, hlabels.trans (by decide +kernel)⟩

end StrengthGraph

end Multigrid
