import Multigrid.Proofs.Strength.Dominant
import Multigrid.Proofs.Strength.InfluenceOrder

/-!
# Tolerances

The threshold of a row is a part of an extreme value of the row, and the tolerance says which part.
In a row without a negative diagonal that extreme is the smallest off-diagonal value or zero.  A
larger part of it is a lower threshold, so less is strong, and the smallest entry itself is strong
as long as the part is not the whole.  In a row with a negative diagonal the extreme is the largest
off-diagonal value or zero, while strong entries are still those below the threshold.  There a
larger part is a higher threshold, and more is strong.

## Main definitions

* `SparseMatrix.IsTightened`: rows where a larger tolerance never marks more
* `StrengthGraph.MarksWithin`: rows of two graphs, the marks of one among those of the other

## Main results

* `StrengthGraph.threshold_antitone`, `StrengthGraph.threshold_monotone`: two tolerances
* `SparseMatrix.smallest_isStrong_iff`: the smallest entries of a row
* `SparseMatrix.marksWithin_of_le`: marks and weights for two tolerances
-/

namespace Multigrid

variable {n : Nat}

/-! ## Rows -/

namespace SparseMatrix

variable (A : SparseMatrix Rat n n) (i : Fin n)

/-- Row `i` has no negative diagonal or no off-diagonal entry above zero. -/
def IsTightened : Prop :=
  A.HasNoNegativeDiagonal i ∨ ∀ e ∈ A.row i, e.column ≠ i → e.value ≤ 0

end SparseMatrix

namespace StrengthGraph

variable {A : SparseMatrix Rat n n} {s t tolerance : Rat} {i : Fin n}

theorem hasNegativeDiagonal_eq_true {d : Rat} (hlast : A.lastDiagonal? i = some d) (hd : d < 0) :
    hasNegativeDiagonal A i = true := by
  rw [hasNegativeDiagonal, hlast]
  exact decide_eq_true hd

theorem mem_offDiagonal {x : Rat} :
    x ∈ offDiagonal A i ↔ ∃ e ∈ A.row i, e.column ≠ i ∧ e.value = x := by
  simp [offDiagonal, and_assoc]

/-! ## Thresholds -/

theorem threshold_eq_greatest {d : Rat} (hlast : A.lastDiagonal? i = some d) (hd : d < 0) :
    threshold tolerance A i = (offDiagonal A i).foldl Arith.greatest 0 * tolerance := by
  rw [threshold, hasNegativeDiagonal_eq_true hlast hd]
  rfl

/-- A larger part of a value that is not above zero. -/
theorem threshold_antitone (h : A.HasNoNegativeDiagonal i) (hst : s ≤ t) :
    threshold t A i ≤ threshold s A i := by
  rw [threshold_eq_least h, threshold_eq_least h]
  exact mul_le_mul_of_nonpos_left hst (foldl_least_nonpos i)

/-- A larger part of a value that is not below zero. -/
theorem threshold_monotone {d : Rat} (hlast : A.lastDiagonal? i = some d) (hd : d < 0)
    (hst : s ≤ t) : threshold s A i ≤ threshold t A i := by
  rw [threshold_eq_greatest hlast hd, threshold_eq_greatest hlast hd]
  have hgreatest : 0 ≤ (offDiagonal A i).foldl Arith.greatest 0 :=
    (isGreatest_foldl_greatest 0 (offDiagonal A i)).2 List.mem_cons_self
  exact mul_le_mul_of_nonneg_left hst hgreatest

/-- Without values above zero, the largest one and zero is zero. -/
theorem threshold_eq_zero {d : Rat} (hlast : A.lastDiagonal? i = some d) (hd : d < 0)
    (h : ∀ e ∈ A.row i, e.column ≠ i → e.value ≤ 0) : threshold tolerance A i = 0 := by
  have hgreatest := isGreatest_foldl_greatest 0 (offDiagonal A i)
  have hzero : (offDiagonal A i).foldl Arith.greatest 0 = 0 := by
    apply le_antisymm _ (hgreatest.2 List.mem_cons_self)
    rcases List.mem_cons.mp hgreatest.1 with heq | hmem
    · exact heq.le
    · obtain ⟨e, he, hne, hvalue⟩ := mem_offDiagonal.mp hmem
      exact hvalue ▸ h e he hne
  rw [threshold_eq_greatest hlast hd, hzero, zero_mul]

theorem threshold_le_of_isTightened (h : A.IsTightened i) (hst : s ≤ t) :
    threshold t A i ≤ threshold s A i := by
  by_cases hdiagonal : A.HasNoNegativeDiagonal i
  · exact threshold_antitone hdiagonal hst
  · -- the largest value of the row is zero, and so is every part of it
    have hvalues := h.resolve_left hdiagonal
    simp only [SparseMatrix.HasNoNegativeDiagonal, not_forall, not_le] at hdiagonal
    obtain ⟨d, hlast, hd⟩ := hdiagonal
    rw [threshold_eq_zero hlast hd hvalues, threshold_eq_zero hlast hd hvalues]

/-! ## Marks -/

theorem isStrong_ofMatrix {e : Entry n Rat} (he : e ∈ A.row i) (hne : e.column ≠ i)
    (hlt : e.value < threshold tolerance A i) : (ofMatrix tolerance A).IsStrong i e.column := by
  refine ⟨⟨e, decide (e.column ≠ i ∧ e.value < threshold tolerance A i)⟩, ?_,
    decide_eq_true ⟨hne, hlt⟩, rfl⟩
  rw [ofMatrix, row_ofRows]
  exact List.mem_map_of_mem he

/-- The same entries, and every entry that is marked in row `i` of `G` is marked in that of `H`. -/
def MarksWithin (G H : StrengthGraph Rat n) (i : Fin n) : Prop :=
  List.Forall₂ (fun c d => c.toEntry = d.toEntry ∧ (c.strong = true → d.strong = true))
    (G.row i) (H.row i)

theorem marksWithin_ofMatrix (h : threshold s A i ≤ threshold t A i) :
    MarksWithin (ofMatrix s A) (ofMatrix t A) i := by
  rw [MarksWithin, ofMatrix, ofMatrix, row_ofRows, row_ofRows, List.forall₂_map_left_iff,
    List.forall₂_map_right_iff, List.forall₂_same]
  intro e _
  refine ⟨rfl, fun hstrong => ?_⟩
  obtain ⟨hne, hlt⟩ := of_decide_eq_true hstrong
  exact decide_eq_true ⟨hne, hlt.trans_le h⟩

theorem strongCount_ofMatrix_le {j : Fin n} (hst : s ≤ t)
    (h : ∀ i, ∀ e ∈ A.row i, e.column = j → j ≠ i → A.IsTightened i) :
    (ofMatrix t A).strongCount j ≤ (ofMatrix s A).strongCount j := by
  refine Finset.sum_le_sum fun i _ => ?_
  rw [ofMatrix, ofMatrix, row_ofRows, row_ofRows, List.countP_map, List.countP_map]
  refine List.countP_mono_left fun e he hstrong => ?_
  simp only [Function.comp_apply, Bool.and_eq_true, decide_eq_true_eq] at hstrong ⊢
  obtain ⟨⟨hne, hlt⟩, hcolumn⟩ := hstrong
  -- what is marked in the column lies off the diagonal, so its row is of the first kind
  have htightened := h i e he hcolumn (hcolumn ▸ hne)
  exact ⟨⟨hne, hlt.trans_le (threshold_le_of_isTightened htightened hst)⟩, hcolumn⟩

/-! ## The smallest entries -/

/-- Of a row that has an off-diagonal entry below zero, the smallest one sets the threshold. -/
theorem exists_smallest (tolerance : Rat) (h : A.HasNoNegativeDiagonal i)
    (hneg : ∃ e ∈ A.row i, e.column ≠ i ∧ e.value < 0) :
    ∃ e ∈ A.row i, e.column ≠ i ∧ e.value < 0 ∧ threshold tolerance A i = e.value * tolerance ∧
      ∀ f ∈ A.row i, f.column ≠ i → e.value ≤ f.value := by
  have hleast := isLeast_foldl_least 0 (offDiagonal A i)
  have hsmallest : ∀ f ∈ A.row i, f.column ≠ i →
      (offDiagonal A i).foldl Arith.least 0 ≤ f.value := by
    intro f hf hne
    exact hleast.2 (List.mem_cons_of_mem 0 (mem_offDiagonal.mpr ⟨f, hf, hne, rfl⟩))
  obtain ⟨f, hf, hne, hvalue⟩ := hneg
  have hbelow := (hsmallest f hf hne).trans_lt hvalue
  -- below zero, it is not the zero that the search starts from
  have hmem := (List.mem_cons.mp hleast.1).resolve_left hbelow.ne
  obtain ⟨e, he, hecolumn, hevalue⟩ := mem_offDiagonal.mp hmem
  rw [← hevalue] at hbelow hsmallest
  refine ⟨e, he, hecolumn, hbelow, ?_, hsmallest⟩
  rw [threshold_eq_least h, hevalue]

theorem lt_mul_iff_lt_one {x : Rat} (hx : x < 0) : x < x * tolerance ↔ tolerance < 1 := by
  have h : x * 1 < x * tolerance ↔ tolerance < 1 := mul_lt_mul_left_of_neg hx
  rwa [mul_one] at h

end StrengthGraph

namespace SparseMatrix

variable {s t tolerance : Rat} {start : InfluenceStart} {values : Vector Float32 n}

open StrengthGraph

/-- Rows without a negative diagonal that have an off-diagonal entry below zero.  Their smallest
off-diagonal entries are strong if and only if the tolerance is below one, and if they are not, then
the row has no strong entry at all. -/
theorem smallest_isStrong_iff (A : SparseMatrix Rat n n) (hpos : 0 < tolerance)
    (hone : tolerance ≤ 1) (hvalues : start.weights n = (.ok values : Except (Fault Rat) _)) :
    ∃ graph weights, A.measured tolerance start = .ok (graph, weights) ∧
      A.compressed.measured n tolerance start = .ok (graph.flags, weights) ∧
      graph.operator = A ∧
      ∀ i, A.HasNoNegativeDiagonal i → (∃ e ∈ A.row i, e.column ≠ i ∧ e.value < 0) →
        (∀ c ∈ graph.row i, c.column ≠ i → (∀ e ∈ A.row i, e.column ≠ i → c.value ≤ e.value) →
          (c.strong = true ↔ tolerance < 1)) ∧
        ((∃ j, graph.IsStrong i j) ↔ tolerance < 1) := by
  have hmeasured := A.measured_eq_ok hpos hone hvalues
  refine ⟨ofMatrix tolerance A, _, hmeasured, ?_, operator_ofMatrix, fun i hi hneg => ?_⟩
  · rw [measured_compressed, hmeasured]
    rfl
  obtain ⟨e, he, hne, hvalue, hthreshold, hsmallest⟩ := exists_smallest tolerance hi hneg
  constructor
  · intro c hc hcolumn hattains
    obtain ⟨hmem, hstrong⟩ := mem_row_ofMatrix hc
    have hsame : c.value = e.value := le_antisymm (hattains e he hne) (hsmallest _ hmem hcolumn)
    rw [hstrong, hthreshold, hsame, lt_mul_iff_lt_one hvalue]
    exact and_iff_right hcolumn
  · constructor
    · rintro ⟨j, c, hc, hstrong, -⟩
      obtain ⟨hmem, hiff⟩ := mem_row_ofMatrix hc
      obtain ⟨hcolumn, hlt⟩ := hiff.mp hstrong
      -- a strong entry is between the smallest one and the threshold
      rw [← lt_mul_iff_lt_one hvalue, ← hthreshold]
      exact (hsmallest _ hmem hcolumn).trans_lt hlt
    · intro hlt
      refine ⟨e.column, isStrong_ofMatrix he hne ?_⟩
      rw [hthreshold]
      exact (lt_mul_iff_lt_one hvalue).mpr hlt

/-- Two points with diagonal entries that make up for the other ones. -/
def balancedPair : SparseMatrix Rat 2 2 :=
  .ofRows fun i => (List.finRange 2).map fun j => ⟨j, if i = j then 2 else -1⟩

theorem hasNoNegativeDiagonal_balancedPair : balancedPair.HasNoNegativeDiagonal 0 := by
  intro d hd
  cases hd
  decide +kernel

theorem balancedPair_isStrong_of_lt_one : ∃ graph weights,
    balancedPair.measured 0.25 .zero = .ok (graph, weights) ∧ ∃ j, graph.IsStrong 0 j := by
  have hpos : (0 : Rat) < 0.25 := by norm_num
  have hone : (0.25 : Rat) ≤ 1 := by norm_num
  have hstart : InfluenceStart.zero.weights 2 =
      (.ok (.replicate 2 0) : Except (Fault Rat) (Vector Float32 2)) := rfl
  obtain ⟨graph, weights, hmeasured, -, -, hrows⟩ :=
    smallest_isStrong_iff balancedPair hpos hone hstart
  obtain ⟨-, hstrong⟩ := hrows 0 hasNoNegativeDiagonal_balancedPair
    ⟨⟨1, -1⟩, .tail _ (.head _), by decide, by norm_num⟩
  exact ⟨graph, weights, hmeasured, hstrong.mpr (by norm_num)⟩

/-- With the tolerance one, the smallest value is its own threshold, and no entry is below that. -/
theorem balancedPair_not_isStrong_at_one : ∃ graph weights,
    balancedPair.measured 1 .zero = .ok (graph, weights) ∧
      balancedPair.HasNoNegativeDiagonal 0 ∧
      (∃ c ∈ graph.row 0, c.column ≠ 0 ∧ c.value < 0 ∧
        (∀ e ∈ balancedPair.row 0, e.column ≠ 0 → c.value ≤ e.value) ∧ c.strong = false) ∧
      ∀ j, ¬ graph.IsStrong 0 j := by
  have hmarks : (ofMatrix 1 balancedPair).row 0 = [⟨⟨0, 2⟩, false⟩, ⟨⟨1, -1⟩, false⟩] := by
    with_unfolding_all rfl
  refine ⟨ofMatrix 1 balancedPair, _, rfl, hasNoNegativeDiagonal_balancedPair,
    ⟨⟨⟨1, -1⟩, false⟩, ?_⟩, ?_⟩
  · refine ⟨hmarks ▸ .tail _ (.head _), by decide, by norm_num, ?_, rfl⟩
    intro e he hne
    have hrow : balancedPair.row 0 = [⟨0, 2⟩, ⟨1, -1⟩] := rfl
    rw [hrow] at he
    rcases List.mem_pair.mp he with rfl | rfl
    · exact absurd rfl hne
    · exact le_refl _
  · decide +kernel

/-! ## Two tolerances -/

/-- Marks and weights for two tolerances.  The larger one marks no more in rows without a negative
diagonal or without off-diagonal entries above zero, and no less in rows with a negative diagonal.
A weight does not grow if all rows with an off-diagonal entry in its column are of the first kind,
for the rounded weights from a start value that is comparable as well as for exact ones. -/
theorem marksWithin_of_le (A : SparseMatrix Rat n n) (hs : 0 < s) (hst : s ≤ t) (ht : t ≤ 1)
    (hvalues : start.weights n = (.ok values : Except (Fault Rat) _)) :
    ∃ G weights H weights', A.measured s start = .ok (G, weights) ∧
      A.measured t start = .ok (H, weights') ∧
      A.compressed.measured n s start = .ok (G.flags, weights) ∧
      A.compressed.measured n t start = .ok (H.flags, weights') ∧
      G.operator = A ∧ H.operator = A ∧
      (∀ i, A.IsTightened i → MarksWithin H G i) ∧
      (∀ i d, A.lastDiagonal? i = some d → d < 0 → MarksWithin G H i) ∧
      ∀ j, (∀ i, ∀ e ∈ A.row i, e.column = j → j ≠ i → A.IsTightened i) →
        H.strongCount j ≤ G.strongCount j ∧
        (values.get j ≤ values.get j → weights'.get j ≤ weights.get j) ∧
        ∀ exact : Vector Rat n, (H.influence exact).get j ≤ (G.influence exact).get j := by
  have hmeasured := A.measured_eq_ok hs (hst.trans ht) hvalues
  have hmeasured' := A.measured_eq_ok (hs.trans_le hst) ht hvalues
  refine ⟨ofMatrix s A, _, ofMatrix t A, _, hmeasured, hmeasured', ?_, ?_, operator_ofMatrix,
    operator_ofMatrix, ?_, ?_, ?_⟩
  · rw [measured_compressed, hmeasured]
    rfl
  · rw [measured_compressed, hmeasured']
    rfl
  · intro i hi
    exact marksWithin_ofMatrix (threshold_le_of_isTightened hi hst)
  · intro i d hlast hd
    exact marksWithin_ofMatrix (threshold_monotone hlast hd hst)
  · intro j hj
    have hcount := strongCount_ofMatrix_le hst hj
    refine ⟨hcount, fun hself => ?_, fun exact => ?_⟩
    · rw [get_influence_eq, get_influence_eq]
      exact increased_mono hself hcount
    · rw [get_influence_eq, get_influence_eq]
      exact increased_mono (le_refl _) hcount

/-- Three points, the first one with a negative diagonal and with two positive entries. -/
def liftedTriple : SparseMatrix Rat 3 3 :=
  .ofRows fun i =>
    if i.val = 0 then (List.finRange 3).map fun j => ⟨j, if j = i then -2 else j.val / 2⟩
    else [⟨i, 1⟩]

theorem liftedTriple_marksWithin : ∃ G weights H weights',
    liftedTriple.measured 0.25 .zero = .ok (G, weights) ∧
      liftedTriple.measured 1 .zero = .ok (H, weights') ∧
      MarksWithin G H 0 ∧ MarksWithin H G 1 := by
  have hpos : (0 : Rat) < 0.25 := by norm_num
  have hle : (0.25 : Rat) ≤ 1 := by norm_num
  have hstart : InfluenceStart.zero.weights 3 =
      (.ok (.replicate 3 0) : Except (Fault Rat) (Vector Float32 3)) := rfl
  obtain ⟨G, weights, H, weights', hG, hH, -, -, -, -, htightened, hnegative, -⟩ :=
    marksWithin_of_le liftedTriple hpos hle (le_refl 1) hstart
  have hdiagonal : liftedTriple.HasNoNegativeDiagonal 1 := by
    intro d hd
    cases hd
    decide +kernel
  exact ⟨G, weights, H, weights', hG, hH, hnegative 0 (-2) rfl (by norm_num),
    htightened 1 (.inl hdiagonal)⟩

/-- The largest entry of the first row is one, and the larger tolerance marks what is below it. -/
theorem liftedTriple_isStrong_at_one : ∃ G weights H weights',
    liftedTriple.measured 0.25 .zero = .ok (G, weights) ∧
      liftedTriple.measured 1 .zero = .ok (H, weights') ∧
      ¬ G.IsStrong 0 1 ∧ H.IsStrong 0 1 ∧ weights.get 1 < weights'.get 1 := by
  have hpos : (0 : Rat) < 0.25 := by norm_num
  have hle : (0.25 : Rat) ≤ 1 := by norm_num
  refine ⟨_, _, _, _, liftedTriple.measured_eq_ok hpos hle rfl,
    liftedTriple.measured_eq_ok one_pos (le_refl 1) rfl, ?_, ?_, ?_⟩
  · decide +kernel
  · decide +kernel
  · decide +kernel

end SparseMatrix

end Multigrid
