import Multigrid.Proofs.Interpolation.Formula
import Multigrid.Proofs.Interpolation.Subconvex
import Multigrid.Proofs.Strength.Dominant

/-!
# The balance of extended interpolation

In a row of a dominant operator every coefficient ends up in a numerator or in the denominator, or
it is lost: a strong neighbour that is undecided hands nothing on, and neither does one whose shared
sum counts as zero.  What is handed on arrives whole, a part of it at the reached points and the
rest at the point itself.  As lost coefficients are at most zero, the numerators and the denominator
sum up to at least the row sum, so the weights are subconvex.  They sum up to one if nothing is lost
and the row sum is zero.

## Main definitions

* `Extended.reachedWeights`: the weights of the points that a point reaches

## Main results

* `Extended.sum_coefficient_add_sum_handed`: the balance of a row, whatever the signs
* `Extended.sum_coefficient_le`, `Extended.sum_coefficient_eq`: the balance of a dominant row
* `Extended.isSubconvex_reachedWeights`: the weights of a row
* `Extended.sum_reachedWeights`: the weights of a row that loses nothing
-/

namespace Multigrid

namespace Extended

variable {n : Nat}

theorem opposed_nonpos {d : Rat} (hd : 0 ≤ d) (x : Rat) : opposed d x ≤ 0 := by
  unfold opposed
  split_ifs with hsame
  · exact le_rfl
  · exact (not_le.mp fun hx => hsame ⟨fun _ => hx, fun _ => hd⟩).le

theorem opposed_eq_self {d x : Rat} (hd : 0 ≤ d) (hx : x ≤ 0) : opposed d x = x := by
  unfold opposed
  split_ifs with hsame
  · exact le_antisymm (hsame.mp hd) hx
  · rfl

variable {G : StrengthGraph Rat n} {labels : Vector Label n} {points : Finset (Fin n)} {i : Fin n}

theorem mem_strongFine {k : Fin n} :
    k ∈ strongFine G labels i ↔ k ≠ i ∧ G.IsStrong i k ∧ labels.get k = .fine := by
  rw [strongFine, Finset.mem_filter, and_iff_right (Finset.mem_univ k)]

/-! ## What is handed on -/

section Handed

/-- What is handed on arrives whole. -/
theorem share_mul_sharedMass {k : Fin n} (hguard : divisionGuard < |sharedMass G points i k|)
    (x : Rat) : share G points i k x * sharedMass G points i k = x := by
  rw [share, if_pos hguard, div_mul_cancel₀ x (abs_pos.mp (divisionGuard_pos.trans hguard))]

theorem le_share_mul_sharedMass (k : Fin n) {x : Rat} (hx : x ≤ 0) :
    x ≤ share G points i k x * sharedMass G points i k := by
  by_cases hguard : divisionGuard < |sharedMass G points i k|
  · exact (share_mul_sharedMass hguard x).ge
  · rwa [share, if_neg hguard, zero_mul]

/-- All that is handed on, to the points and back. -/
theorem sum_handedBy : ∑ j ∈ insert i points, handedBy G labels points i j =
    ∑ k ∈ strongFine G labels i, share G points i k (G.operator.coefficient i k) *
      ∑ m ∈ insert i points, opposing G k m := by
  simp only [handedBy, Finset.mul_sum]
  exact Finset.sum_comm

variable (h : G.IsDominant)

include h

theorem opposing_nonpos (k j : Fin n) : opposing G k j ≤ 0 :=
  opposed_nonpos h.operator.coefficient_self_nonneg _

theorem opposing_eq_coefficient {k j : Fin n} (hjk : j ≠ k) :
    opposing G k j = G.operator.coefficient k j :=
  opposed_eq_self h.operator.coefficient_self_nonneg (h.operator.coefficient_nonpos hjk)

theorem sharedMass_eq_sum_opposing (k : Fin n) :
    sharedMass G points i k = ∑ m ∈ insert i points, opposing G k m := by
  have hi : 0 ≤ G.operator.coefficient i i := h.operator.coefficient_self_nonneg
  have hk : 0 ≤ G.operator.coefficient k k := h.operator.coefficient_self_nonneg
  simp only [sharedMass, opposing, opposed, hi, hk]

theorem sharedMass_nonpos (k : Fin n) : sharedMass G points i k ≤ 0 := by
  rw [sharedMass_eq_sum_opposing h]
  exact Finset.sum_nonpos fun m _ => opposing_nonpos h k m

theorem share_nonneg (k : Fin n) {x : Rat} (hx : x ≤ 0) : 0 ≤ share G points i k x := by
  unfold share
  split_ifs
  · exact div_nonneg_of_nonpos hx (sharedMass_nonpos h k)
  · exact le_rfl

theorem share_mul_opposing_nonpos {k : Fin n} (hk : k ∈ strongFine G labels i) (j : Fin n) :
    share G points i k (G.operator.coefficient i k) * opposing G k j ≤ 0 :=
  mul_nonpos_of_nonneg_of_nonpos
    (share_nonneg h k (h.coefficient_neg (mem_strongFine.mp hk).2.1).le) (opposing_nonpos h k j)

theorem handedBy_nonpos (j : Fin n) : handedBy G labels points i j ≤ 0 :=
  Finset.sum_nonpos fun _ hk => share_mul_opposing_nonpos h hk j

theorem numerator_nonpos {l : Fin n} (hl : l ≠ i) : numerator G labels points i l ≤ 0 :=
  add_nonpos (h.operator.coefficient_nonpos hl) (handedBy_nonpos h l)

end Handed

/-! ## The balance of a row -/

section Balance

variable (hi : i ∉ points)

include hi

/-- The coefficients of a row, sorted by what becomes of them. -/
theorem sum_coefficient_eq_parts : ∑ j, G.operator.coefficient i j =
    G.operator.coefficient i i + ∑ l ∈ points, G.operator.coefficient i l +
      lumpedMass G points i +
      ∑ j with j ≠ i ∧ j ∉ points ∧ G.IsStrong i j, G.operator.coefficient i j := by
  have hweak : (insert i points)ᶜ.filter (fun j => ¬ G.IsStrong i j) =
      Finset.univ.filter fun j => j ≠ i ∧ j ∉ points ∧ ¬ G.IsStrong i j := by
    ext j
    simp [and_assoc]
  have hstrong : (insert i points)ᶜ.filter (fun j => G.IsStrong i j) =
      Finset.univ.filter fun j => j ≠ i ∧ j ∉ points ∧ G.IsStrong i j := by
    ext j
    simp [and_assoc]
  rw [← Finset.sum_add_sum_compl (insert i points), Finset.sum_insert hi,
    ← Finset.sum_filter_not_add_sum_filter (insert i points)ᶜ (fun j => G.IsStrong i j), hweak,
    hstrong, lumpedMass, add_assoc _ _ (∑ j with _, _)]

theorem denominator_add_sum_numerator :
    denominator G labels points i + ∑ l ∈ points, numerator G labels points i l =
      G.operator.coefficient i i + ∑ l ∈ points, G.operator.coefficient i l +
        lumpedMass G points i + ∑ k ∈ strongFine G labels i,
          share G points i k (G.operator.coefficient i k) *
            ∑ m ∈ insert i points, opposing G k m := by
  rw [← sum_handedBy, Finset.sum_insert hi, denominator]
  simp only [numerator, Finset.sum_add_distrib]
  ring

variable (hcoarse : ∀ l ∈ points, labels.get l = .coarse)

omit hi in
include hcoarse in
theorem not_mem_of_mem_strongFine {k : Fin n} (hk : k ∈ strongFine G labels i) : k ∉ points := by
  intro hmem
  have hfine := (mem_strongFine.mp hk).2.2
  rw [hcoarse k hmem] at hfine
  cases hfine

omit hi in
include hcoarse in
theorem filter_strong_not_mem_eq_strongFine
    (hfine : ∀ j, j ≠ i → j ∉ points → G.IsStrong i j → labels.get j = .fine) :
    Finset.univ.filter (fun j => j ≠ i ∧ j ∉ points ∧ G.IsStrong i j) = strongFine G labels i := by
  ext k
  rw [Finset.mem_filter, and_iff_right (Finset.mem_univ k)]
  constructor
  · rintro ⟨hki, hreach, hstrong⟩
    exact mem_strongFine.mpr ⟨hki, hstrong, hfine k hki hreach hstrong⟩
  · intro hk
    obtain ⟨hki, hstrong, -⟩ := mem_strongFine.mp hk
    exact ⟨hki, not_mem_of_mem_strongFine hcoarse hk, hstrong⟩

include hcoarse in
/-- If the strong neighbours that are not reached are fine, the numerators and the denominator sum
up to the row sum, with what these neighbours hand on in place of their coefficients. -/
theorem sum_coefficient_add_sum_handed
    (hfine : ∀ j, j ≠ i → j ∉ points → G.IsStrong i j → labels.get j = .fine) :
    ∑ j, G.operator.coefficient i j + ∑ k ∈ strongFine G labels i,
        share G points i k (G.operator.coefficient i k) * ∑ m ∈ insert i points, opposing G k m =
      denominator G labels points i + ∑ l ∈ points, numerator G labels points i l +
        ∑ k ∈ strongFine G labels i, G.operator.coefficient i k := by
  rw [denominator_add_sum_numerator hi, sum_coefficient_eq_parts hi,
    filter_strong_not_mem_eq_strongFine hcoarse hfine]
  ring

variable (h : G.IsDominant)

include h hcoarse

/-- The numerators and the denominator sum up to at least the row sum. -/
theorem sum_coefficient_le : ∑ j, G.operator.coefficient i j ≤
    denominator G labels points i + ∑ l ∈ points, numerator G labels points i l := by
  rw [sum_coefficient_eq_parts hi, denominator_add_sum_numerator hi]
  refine add_le_add_right ?_ _
  calc ∑ j with j ≠ i ∧ j ∉ points ∧ G.IsStrong i j, G.operator.coefficient i j
      ≤ ∑ k ∈ strongFine G labels i, G.operator.coefficient i k := by
        -- strong neighbours that are neither reached nor fine are lost
        apply Finset.sum_le_sum_of_subset_of_nonpos'
        · intro k hk
          obtain ⟨hki, hstrong, -⟩ := mem_strongFine.mp hk
          exact Finset.mem_filter.mpr
            ⟨Finset.mem_univ k, hki, not_mem_of_mem_strongFine hcoarse hk, hstrong⟩
        · intro j hj _
          exact h.operator.coefficient_nonpos (Finset.mem_filter.mp hj).2.1
    _ ≤ _ := by
        apply Finset.sum_le_sum
        intro k hk
        rw [← sharedMass_eq_sum_opposing h]
        exact le_share_mul_sharedMass k (h.coefficient_neg (mem_strongFine.mp hk).2.1).le

/-- They sum up to the row sum if the strong neighbours that are not reached are fine, and none of
their shared sums counts as zero. -/
theorem sum_coefficient_eq
    (hfine : ∀ j, j ≠ i → j ∉ points → G.IsStrong i j → labels.get j = .fine)
    (hguard : ∀ k ∈ strongFine G labels i, divisionGuard < |sharedMass G points i k|) :
    ∑ j, G.operator.coefficient i j =
      denominator G labels points i + ∑ l ∈ points, numerator G labels points i l := by
  have hhanded : ∑ k ∈ strongFine G labels i, share G points i k (G.operator.coefficient i k) *
      ∑ m ∈ insert i points, opposing G k m =
        ∑ k ∈ strongFine G labels i, G.operator.coefficient i k := by
    apply Finset.sum_congr rfl
    intro k hk
    rw [← sharedMass_eq_sum_opposing h, share_mul_sharedMass (hguard k hk)]
  have hbalance := sum_coefficient_add_sum_handed hi hcoarse hfine
  rw [hhanded] at hbalance
  exact add_right_cancel hbalance

theorem denominator_nonneg : 0 ≤ denominator G labels points i := by
  have hsum : ∑ l ∈ points, numerator G labels points i l ≤ 0 := by
    apply Finset.sum_nonpos
    intro l hl
    exact numerator_nonpos h fun heq => hi (heq ▸ hl)
  have hbalance := h.operator.sum_coefficient_nonneg.trans (sum_coefficient_le hi hcoarse h)
  linarith

end Balance

/-! ## Weights -/

section Weights

variable (G labels i) in
/-- The weights of the points that point `i` reaches. -/
def reachedWeights (firstOnly : Bool) : List Rat :=
  (reachedPoints G labels firstOnly i).map fun l =>
    weightFactor G labels (reachSet G labels firstOnly i) i *
      numerator G labels (reachSet G labels firstOnly i) i l

variable {firstOnly : Bool}

theorem sum_reachedWeights_eq : (reachedWeights G labels i firstOnly).sum =
    weightFactor G labels (reachSet G labels firstOnly i) i *
      ∑ l ∈ reachSet G labels firstOnly i,
        numerator G labels (reachSet G labels firstOnly i) i l := by
  have hnodup : (reachedPoints G labels firstOnly i).Nodup :=
    (pairwise_reachedPoints G labels firstOnly i).imp ne_of_lt
  rw [reachedWeights, ← List.sum_toFinset _ hnodup, Finset.mul_sum]
  rfl

variable (h : G.IsDominant)

theorem coarse_of_mem_reachSet : ∀ l ∈ reachSet G labels firstOnly i, labels.get l = .coarse :=
  fun _ hl => (mem_reachSet.mp hl).coarse

/-- A strong neighbour that is not reached is fine, if every one is coarse or fine. -/
theorem fine_of_not_mem_reachSet
    (hdecided : ∀ k, k ≠ i → G.IsStrong i k → labels.get k = .coarse ∨ labels.get k = .fine) :
    ∀ j, j ≠ i → j ∉ reachSet G labels firstOnly i → G.IsStrong i j → labels.get j = .fine := by
  intro j hne hj hij
  refine (hdecided j hne hij).resolve_left fun hcoarse => hj ?_
  exact mem_reachSet.mpr (.direct hij hne hcoarse)

variable (hi : labels.get i ≠ .coarse)

include hi

theorem not_mem_reachSet : i ∉ reachSet G labels firstOnly i :=
  fun hmem => hi (coarse_of_mem_reachSet i hmem)

include h

theorem isSubconvex_reachedWeights : IsSubconvex (reachedWeights G labels i firstOnly) := by
  have hnot : i ∉ reachSet G labels firstOnly i := not_mem_reachSet hi
  have hdenominator := denominator_nonneg hnot coarse_of_mem_reachSet h
  constructor
  · intro x hx
    obtain ⟨l, hl, rfl⟩ := List.mem_map.mp hx
    have hli : l ≠ i := by
      rintro rfl
      exact hnot (List.mem_toFinset.mpr hl)
    have hfactor : weightFactor G labels (reachSet G labels firstOnly i) i ≤ 0 := by
      unfold weightFactor
      split_ifs
      · exact div_nonpos_of_nonpos_of_nonneg (by norm_num) hdenominator
      · exact le_rfl
    exact mul_nonneg_of_nonpos_of_nonpos hfactor (numerator_nonpos h hli)
  · have hbalance := h.operator.sum_coefficient_nonneg.trans
      (sum_coefficient_le hnot coarse_of_mem_reachSet h)
    rw [sum_reachedWeights_eq]
    unfold weightFactor
    split_ifs with hguard
    · have hpos := lt_of_le_of_ne hdenominator
        (abs_pos.mp (divisionGuard_pos.trans hguard)).symm
      rw [div_mul_eq_mul_div, div_le_one hpos]
      linarith
    · rw [zero_mul]
      exact zero_le_one

/-! ### Rows that lose nothing -/

section Whole

variable (hdecided : ∀ k, G.IsStrong i k → labels.get k = .coarse ∨ labels.get k = .fine)
  (hhandsOn : ∀ k, G.IsStrong i k → labels.get k = .fine → ∃ m, HandsOn G labels firstOnly k m)

omit hi in
include hhandsOn in
/-- A strong fine neighbour that hands on to a point has a shared sum below zero. -/
theorem exists_opposing_neg {k : Fin n} (hk : k ∈ strongFine G labels i) :
    ∃ m ∈ reachSet G labels firstOnly i, opposing G k m < 0 := by
  obtain ⟨hki, hstrong, hfine⟩ := mem_strongFine.mp hk
  obtain ⟨m, hm⟩ := hhandsOn k hstrong hfine
  have hkm := hm.isStrong
  refine ⟨m, mem_reachSet.mpr (.handedOn hstrong hki (by simp [hfine]) hm), ?_⟩
  rw [opposing_eq_coefficient h (h.ne_of_isStrong hkm)]
  exact h.coefficient_neg hkm

omit hi in
include hhandsOn in
theorem sharedMass_neg {k : Fin n} (hk : k ∈ strongFine G labels i) :
    sharedMass G (reachSet G labels firstOnly i) i k < 0 := by
  obtain ⟨m, hm, hneg⟩ := exists_opposing_neg h hhandsOn hk
  rw [sharedMass_eq_sum_opposing h]
  exact Finset.sum_neg' (fun m _ => opposing_nonpos h k m)
    ⟨m, Finset.mem_insert_of_mem hm, hneg⟩

variable (hguard : ∀ k ∈ strongFine G labels i,
  sharedMass G (reachSet G labels firstOnly i) i k ≠ 0 →
    divisionGuard < |sharedMass G (reachSet G labels firstOnly i) i k|)

include hdecided hhandsOn hguard

/-- A strong connection makes some numerator negative: the one of a coarse neighbour, or the one of
a point that a fine neighbour hands on to. -/
theorem exists_numerator_neg {j : Fin n} (hij : G.IsStrong i j) :
    ∃ l ∈ reachSet G labels firstOnly i,
      numerator G labels (reachSet G labels firstOnly i) i l < 0 := by
  rcases hdecided j hij with hj | hj
  · refine ⟨j, mem_reachSet.mpr (.direct hij (h.ne_of_isStrong hij) hj), ?_⟩
    exact add_neg_of_neg_of_nonpos (h.coefficient_neg hij) (handedBy_nonpos h j)
  · have hmem : j ∈ strongFine G labels i := mem_strongFine.mpr ⟨h.ne_of_isStrong hij, hij, hj⟩
    obtain ⟨m, hm, hneg⟩ := exists_opposing_neg h hhandsOn hmem
    have hshared := sharedMass_neg h hhandsOn hmem
    have hshare : 0 < share G (reachSet G labels firstOnly i) i j (G.operator.coefficient i j) := by
      rw [share, if_pos (hguard j hmem hshared.ne)]
      exact div_pos_of_neg_of_neg (h.coefficient_neg hij) hshared
    have hhanded : handedBy G labels (reachSet G labels firstOnly i) i m < 0 :=
      Finset.sum_neg' (fun k hk => share_mul_opposing_nonpos h hk m)
        ⟨j, hmem, mul_neg_of_pos_of_neg hshare hneg⟩
    have hmi : m ≠ i := fun heq => not_mem_reachSet hi (heq ▸ hm)
    exact ⟨m, hm, add_neg_of_nonpos_of_neg (h.operator.coefficient_nonpos hmi) hhanded⟩

/-- The weights of a row with a strong connection that loses nothing and sums up to zero. -/
theorem sum_reachedWeights {j : Fin n} (hij : G.IsStrong i j)
    (hzero : ∑ j, G.operator.coefficient i j = 0)
    (hdenominator : denominator G labels (reachSet G labels firstOnly i) i ≠ 0 →
      divisionGuard < |denominator G labels (reachSet G labels firstOnly i) i|) :
    (reachedWeights G labels i firstOnly).sum = 1 := by
  have hnot : i ∉ reachSet G labels firstOnly i := not_mem_reachSet hi
  have hbalance := sum_coefficient_eq hnot coarse_of_mem_reachSet h
    (fine_of_not_mem_reachSet fun k _ => hdecided k)
    fun k hk => hguard k hk (sharedMass_neg h hhandsOn hk).ne
  obtain ⟨l, hl, hneg⟩ := exists_numerator_neg h hi hdecided hhandsOn hguard hij
  have hsum : ∑ l ∈ reachSet G labels firstOnly i,
      numerator G labels (reachSet G labels firstOnly i) i l < 0 := by
    refine Finset.sum_neg' (fun l hl => ?_) ⟨l, hl, hneg⟩
    exact numerator_nonpos h fun heq => hnot (heq ▸ hl)
  rw [hzero] at hbalance
  have hpos : 0 < denominator G labels (reachSet G labels firstOnly i) i := by linarith
  rw [sum_reachedWeights_eq, weightFactor, if_pos (hdenominator hpos.ne'), div_mul_eq_mul_div,
    div_eq_one_iff_eq hpos.ne']
  linarith

end Whole

end Weights

end Extended

end Multigrid
