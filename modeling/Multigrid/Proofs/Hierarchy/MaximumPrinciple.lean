import Multigrid.Proofs.Hierarchy.Steps
import Multigrid.Proofs.Interpolation.Coverage
import Multigrid.Proofs.Interpolation.DirectBalance
import Multigrid.Proofs.Interpolation.ExtendedBalance

/-!
# The discrete maximum principle

The rows of a prolongator take values at the coarse points to values at all points.  For a dominant
operator every row is subconvex, under either scheme and with or without truncation, so no value at
a point lies beyond zero and the extremes of the coarse values.  A row whose counterpart in the
operator sums up to zero takes constants to themselves, if there is a connection to interpolate
along and nothing counts as zero that is not.

## Main definitions

* `interpolatedValues`: the values in a row before truncation
* `Parameters.Compares`: the quantities that are compared with the guard of a division

## Main results

* `isSubconvex_interpolatedValues`, `sum_interpolatedValues`: the rows before truncation
* `maximum_principle`: the rows of a prolongator
-/

namespace Multigrid

variable {n : Nat}

/-! ## Before truncation -/

section Interpolated

variable (p : Parameters Rat) (G : StrengthGraph Rat n) (labels : Vector Label n) (i : Fin n)

/-- The values in row `i` before truncation. -/
def interpolatedValues : List Rat :=
  if labels.get i = .coarse then [1]
  else match p.scheme with
    | .direct => valuesOf (Direct.rows G labels i)
    | .extended => Extended.reachedWeights G labels i p.firstOnly

variable {p G labels i}

theorem valuesOf_eq_of_map_eq {m : Nat} {β : Type} {entries : List (Entry m Rat)} {items : List β}
    {number : β → Nat} {value : β → Rat}
    (h : entries.map (fun e => (e.column.val, e.value)) = items.map fun b => (number b, value b)) :
    valuesOf entries = items.map value := by
  have hsnd := congrArg (List.map Prod.snd) h
  rwa [List.map_map, List.map_map] at hsnd

theorem valuesOf_row_of_interpolated (h : G.IsDominant) (hcapacity : p.capacity = .ok none)
    {buffer : RowBuffer Rat n}
    (hbuffer : interpolated G labels G.operator.diagonal p = .ok buffer) :
    valuesOf ((coarseColumns labels buffer).row i) = interpolatedValues p G labels i := by
  unfold interpolated at hbuffer
  unfold interpolatedValues
  cases hscheme : p.scheme with
  | direct =>
    -- the entries that are counted are the ones that are kept
    simp only [hscheme, Direct.prolongator_eq_ok (Direct.countsKept_exact G labels)] at hbuffer
    cases hbuffer
    rw [valuesOf_eq_of_map_eq (Direct.map_row_coarseColumns_rows _ _ i)]
    split_ifs with hi
    · rw [Direct.rows, Direct.row, if_pos hi]
      rfl
    · rfl
  | extended =>
    simp only [hscheme, hcapacity] at hbuffer
    split_ifs with hi
    · have hcolumns :
          Extended.HasReachedColumns G labels p.firstOnly (coarseColumns labels buffer) :=
        Extended.hasReachedColumns_of_prolongator_eq_ok hbuffer
      rw [hcolumns.unit hi]
      rfl
    · exact valuesOf_eq_of_map_eq
        (Extended.map_row_of_prolongator_eq_ok h.operator.hasDistinctColumns hbuffer hi)

theorem isSubconvex_interpolatedValues (h : G.IsDominant) :
    IsSubconvex (interpolatedValues p G labels i) := by
  unfold interpolatedValues
  split_ifs with hi
  · exact isSubconvex_one
  · cases p.scheme with
    | direct => exact Direct.isSubconvex_rows h hi
    | extended => exact Extended.isSubconvex_reachedWeights h hi

variable (p G labels i) in
/-- The quantities that are compared with the guard of a division while row `i` is interpolated and
truncated.  A coarse point is not interpolated. -/
inductive Parameters.Compares : Rat → Prop where
  /-- What direct interpolation compares. -/
  | direct {x : Rat} (hi : labels.get i ≠ .coarse) (scheme : p.scheme = .direct)
      (mem : x ∈ Direct.compared G labels i) : Compares x
  /-- The shared sums of strong fine neighbours. -/
  | shared {k : Fin n} (hi : labels.get i ≠ .coarse) (scheme : p.scheme = .extended)
      (mem : k ∈ Extended.strongFine G labels i) :
      Compares (Extended.sharedMass G (Extended.reachSet G labels p.firstOnly i) i k)
  /-- The denominator of extended interpolation. -/
  | denominator (hi : labels.get i ≠ .coarse) (scheme : p.scheme = .extended) :
      Compares (Extended.denominator G labels (Extended.reachSet G labels p.firstOnly i) i)
  /-- The sum of the entries that truncation keeps. -/
  | kept {buffer : RowBuffer Rat n}
      (interpolated : interpolated G labels G.operator.diagonal p = .ok buffer)
      (truncated : 0 < p.truncation) :
      Compares (Truncation.rowSum
        (Truncation.kept p.truncation ((coarseColumns labels buffer).row i)))

variable (p G labels i) in
/-- There is something to interpolate point `i` from: the point itself if it is coarse, and for a
fine one a strong connection, which direct interpolation wants to lead to a coarse point. -/
def Parameters.CanInterpolate : Prop :=
  labels.get i = .coarse ∨ labels.get i = .fine ∧ match p.scheme with
    | .direct => ∃ j, G.IsStrong i j ∧ labels.get j = .coarse
    | .extended => ∃ j, G.IsStrong i j

theorem sum_interpolatedValues (h : G.IsDominant)
    (hdecided : ∀ k, labels.get k = .coarse ∨ labels.get k = .fine)
    (hhandsOn : ∀ k, G.IsStrong i k → labels.get k = .fine →
      ∃ m, Extended.HandsOn G labels p.firstOnly k m)
    (hzero : ∑ j, G.operator.coefficient i j = 0)
    (hguard : ∀ x, p.Compares G labels i x → x ≠ 0 → divisionGuard < |x|)
    (hcan : p.CanInterpolate G labels i) : (interpolatedValues p G labels i).sum = 1 := by
  unfold interpolatedValues
  split_ifs with hi
  · exact List.sum_singleton
  · have hconnection := (hcan.resolve_left hi).2
    cases hscheme : p.scheme with
    | direct =>
      simp only [hscheme] at hconnection
      obtain ⟨j, hij, hj⟩ := hconnection
      exact Direct.sum_valuesOf_rows_eq_one h hi hij hj hzero fun x hx =>
        hguard x (.direct hi hscheme hx)
    | extended =>
      simp only [hscheme] at hconnection
      obtain ⟨j, hij⟩ := hconnection
      exact Extended.sum_reachedWeights h hi (fun k _ => hdecided k) hhandsOn
        (fun k hk => hguard _ (.shared hi hscheme hk)) hij hzero
        (hguard _ (.denominator hi hscheme))

end Interpolated

/-! ## After truncation -/

section Truncated

variable {k : Nat} {P : SparseMatrix Rat n k} {ratio : Rat} {i : Fin n}

theorem isSubconvex_truncated (ratio : Rat) (h : IsSubconvex (valuesOf (P.row i))) :
    IsSubconvex (valuesOf
      ((if 0 < ratio then SparseMatrix.ofRows (Truncation.rows P ratio) else P).row i)) := by
  split_ifs
  · rw [SparseMatrix.row_ofRows]
    exact Truncation.isSubconvex_row h ratio
  · exact h

theorem sum_truncated (h : IsSubconvex (valuesOf (P.row i))) (hone : (valuesOf (P.row i)).sum = 1)
    (hratio : ratio ≤ 1)
    (hguard : 0 < ratio → (Truncation.rowSum (Truncation.kept ratio (P.row i)) : Rat) ≠ 0 →
      divisionGuard < |(Truncation.rowSum (Truncation.kept ratio (P.row i)) : Rat)|) :
    (valuesOf ((if 0 < ratio then SparseMatrix.ofRows (Truncation.rows P ratio)
      else P).row i)).sum = 1 := by
  split_ifs with hpos
  · rw [SparseMatrix.row_ofRows]
    exact Truncation.sum_valuesOf_row h.nonneg hratio hone (hguard hpos)
  · exact hone

end Truncated

/-! ## The steps from an operator -/

section Steps

variable {A : SparseMatrix Rat n n} {p : Parameters Rat}

/-- The strength graph of an operator. -/
def Parameters.graph (p : Parameters Rat) (A : SparseMatrix Rat n n) : StrengthGraph Rat n :=
  .ofMatrix p.tolerance A

theorem operator_graph : (p.graph A).operator = A := StrengthGraph.operator_ofMatrix

theorem isDominant_graph (hA : A.IsDominant) (hp : p.IsValid) : (p.graph A).IsDominant :=
  StrengthGraph.isDominant_ofMatrix hA hp.tolerance.1.le

theorem isNotNegative_influenceStart : p.influenceStart.IsNotNegative := by
  unfold Parameters.influenceStart
  split_ifs <;> trivial

theorem map_value_eq (A : SparseMatrix Rat n n) : A.map Storage.value = A :=
  A.map_id_eq

theorem map_widen_eq (diagonal : Vector Rat n) : diagonal.map Storage.widen = diagonal :=
  Vector.map_id _

/-- The steps to a prolongator in exact arithmetic, taken apart. -/
theorem exists_of_prolongation_eq_ok (hp : p.IsValid) {P : Prolongation Rat n}
    (h : p.prolongation A = .ok P) : ∃ weights buffer,
      A.measured p.tolerance p.influenceStart = .ok (p.graph A, weights) ∧
      (p.graph A).split weights p.maxRounds =
        (.ok P.splitting : Except (Fault Rat) (Splitting n)) ∧
      interpolated (p.graph A) P.splitting.labels (p.graph A).operator.diagonal p = .ok buffer ∧
      P.matrix = if 0 < p.truncation then
          .ofRows (Truncation.rows (coarseColumns P.splitting.labels buffer) p.truncation)
        else coarseColumns P.splitting.labels buffer := by
  obtain ⟨graph, weights, buffer, hmeasured, hsplit, hbuffer, hmatrix⟩ :=
    Parameters.exists_of_prolongation_eq_ok h
  rw [map_value_eq] at hmeasured
  obtain ⟨values, -, rfl, -⟩ := SparseMatrix.exists_of_measured_eq_ok hmeasured
  rw [map_widen_eq] at hbuffer
  rw [truncatedIfAsked_eq_ok _ hp.truncation] at hmatrix
  rw [operator_graph]
  exact ⟨weights, buffer, hmeasured, hsplit, hbuffer, (Except.ok.inj hmatrix).symm⟩

/-- In a splitting that has converged, a strong fine neighbour hands on to some coarse point. -/
theorem exists_handsOn_of_split {weights : Vector Float32 n}
    (hmeasured : A.measured p.tolerance p.influenceStart = .ok (p.graph A, weights))
    {s : Splitting n} (hsplit : (p.graph A).split weights p.maxRounds =
      (.ok s : Except (Fault Rat) (Splitting n)))
    (hconverged : s.converged = true) {i k : Fin n} (hik : (p.graph A).IsStrong i k)
    (hk : s.labels.get k = .fine) : ∃ m, Extended.HandsOn (p.graph A) s.labels p.firstOnly k m := by
  obtain ⟨l, hkl, hl⟩ := StrengthGraph.exists_coarse_of_split hsplit hconverged (by simp [hk])
    (SparseMatrix.one_le_of_measured hmeasured isNotNegative_influenceStart hik)
  exact Extended.exists_handsOn p.firstOnly hkl hl

end Steps

/-! ## The principle -/

/-- Prolongators of dominant operators.  There is one for all options that pass the checks, no entry
is below zero, and no row sums up to more than one.  In a splitting that has converged, a row whose
sum is zero is interpolated by weights that sum up to one, if there is something to interpolate it
from and every quantity that is compared with the guard is zero or above it in magnitude. -/
theorem maximum_principle {A : SparseMatrix Rat n n} (hA : A.IsDominant) {o : Options Rat}
    {p : Parameters Rat} (hresolve : o.resolve = .ok p) (hrounds : ∀ x, o.maxRounds ≠ .real x)
    (hcapacity : o.capacity = .nothing) (level : Datum) (session : Session Float) :
    (n ≤ 0x8000000000000000 →
      ∃ P report, ((prolongate A p level).run session).1 = .ok (P, report)) ∧
    ∀ P report, ((prolongate A p level).run session).1 = .ok (P, report) →
      (∀ i, (∀ e ∈ P.matrix.row i, 0 ≤ e.value) ∧ (valuesOf (P.matrix.row i)).sum ≤ 1) ∧
      ∀ i, P.splitting.converged = true → (valuesOf (A.row i)).sum = 0 →
        (∀ x, p.Compares (p.graph A) P.splitting.labels i x → x ≠ 0 → divisionGuard < |x|) →
        p.CanInterpolate (p.graph A) P.splitting.labels i →
        (valuesOf (P.matrix.row i)).sum = 1 := by
  obtain ⟨hp, hopen⟩ := Options.isValid_of_resolve hresolve hrounds
  have hgiven := hopen hcapacity
  have hgives := gives_prolongate p A level
  constructor
  · intro hn
    obtain ⟨P, hP⟩ := Parameters.exists_prolongation_eq_ok hp hgiven hn A
    rw [hP] at hgives
    obtain ⟨found, hrun, -⟩ := hgives.exists_ok session
    exact ⟨found.1, found.2, hrun⟩
  · intro P report hrun
    obtain ⟨weights, buffer, hmeasured, hsplit, hbuffer, hmatrix⟩ :=
      exists_of_prolongation_eq_ok hp (hgives.eq_ok hrun)
    have hG := isDominant_graph hA hp
    have hvalues (i : Fin n) := valuesOf_row_of_interpolated (i := i) hG hgiven hbuffer
    have hfull (i : Fin n) :
        IsSubconvex (valuesOf ((coarseColumns P.splitting.labels buffer).row i)) := by
      rw [hvalues]
      exact isSubconvex_interpolatedValues hG
    rw [hmatrix]
    constructor
    · intro i
      have hrow := isSubconvex_truncated p.truncation (hfull i)
      exact ⟨fun e he => hrow.nonneg e.value (List.mem_map_of_mem he), hrow.sum_le_one⟩
    · intro i hconverged hzero hguard hcan
      -- every point is decided, and what is lost otherwise is handed on
      have hdecided (k : Fin n) := (StrengthGraph.label_cases_of_split hsplit k).resolve_left
        ((StrengthGraph.converged_iff_of_split hsplit).mp hconverged k)
      have hsum : ∑ j, (p.graph A).operator.coefficient i j = 0 := by
        rw [operator_graph]
        exact (sum_valuesOf (A.row i)).symm.trans hzero
      have hone := sum_interpolatedValues hG hdecided
        (fun k => exists_handsOn_of_split hmeasured hsplit hconverged) hsum hguard hcan
      rw [← hvalues] at hone
      exact sum_truncated (hfull i) hone hp.truncation.2 fun hpos => hguard _ (.kept hbuffer hpos)

/-- Five points, of which the second one draws on the first and the third, and the fourth one on the
second only. -/
def detour : SparseMatrix Rat 5 5 :=
  ⟨#v[[⟨0, 1⟩], [⟨0, -3⟩, ⟨1, 4⟩, ⟨2, -1⟩], [⟨2, 1⟩], [⟨1, -2⟩, ⟨3, 2⟩],
    [⟨0, -1⟩, ⟨2, -1⟩, ⟨4, 2⟩]]⟩

/-- Options under which no tie is broken and weights below half of the largest one are dropped. -/
def detourOptions : Options Rat := { truncation := 0.5, tieBreak := .flag false }

/-- The parameters of these options. -/
def detourParameters : Parameters Rat := { truncation := 0.5, tieBreak := false, seed := [] }

/-- The splitting of the detour. -/
def detourSplitting : Splitting 5 := ⟨#v[.coarse, .fine, .coarse, .fine, .fine], 1, true⟩

theorem isDominant_detour : detour.IsDominant where
  hasDistinctColumns := by decide
  offDiagonal_nonpos := by decide +kernel
  diagonal_nonneg := by decide +kernel
  rowSum_nonneg := by decide +kernel

theorem isValid_detourParameters : detourParameters.IsValid where
  tolerance := by decide +kernel
  truncation := by decide +kernel
  maxRounds := by simp [detourParameters]

theorem split_detour {weights : Vector Float32 5}
    (h : detour.measured detourParameters.tolerance detourParameters.influenceStart =
      .ok (detourParameters.graph detour, weights)) :
    (detourParameters.graph detour).split weights detourParameters.maxRounds =
      (.ok detourSplitting : Except (Fault Rat) (Splitting 5)) := by
  have hmeasured : detour.measured detourParameters.tolerance detourParameters.influenceStart =
      .ok (detourParameters.graph detour, #v[2, 1, 2, 0, 0]) := by
    with_unfolding_all rfl
  obtain rfl := congrArg Prod.snd (Except.ok.inj (h.symm.trans hmeasured))
  with_unfolding_all rfl

theorem guard_lt_of_compares_detour {x : Rat}
    (h : detourParameters.Compares (detourParameters.graph detour) detourSplitting.labels 3 x) :
    divisionGuard < |x| := by
  have hdominant := isDominant_graph isDominant_detour isValid_detourParameters
  cases h with
  | direct _ hscheme => cases hscheme
  | shared _ _ hk =>
    have hall : ∀ k ∈ Extended.strongFine (detourParameters.graph detour) detourSplitting.labels 3,
        divisionGuard < |Extended.sharedMass (detourParameters.graph detour)
          (Extended.reachSet (detourParameters.graph detour) detourSplitting.labels false 3)
          3 k| := by
      decide +kernel
    exact hall _ hk
  | denominator =>
    have hvalue : divisionGuard < |Extended.denominator (detourParameters.graph detour)
        detourSplitting.labels (Extended.reachSet (detourParameters.graph detour)
          detourSplitting.labels false 3) 3| := by
      decide +kernel
    exact hvalue
  | kept hbuffer _ =>
    have hvalues := valuesOf_row_of_interpolated (i := 3) hdominant rfl hbuffer
    have hconcrete : interpolatedValues detourParameters (detourParameters.graph detour)
        detourSplitting.labels 3 = [3 / 4, 1 / 4] := by
      decide +kernel
    rw [hconcrete] at hvalues
    -- the larger of the two weights is kept
    have hratio : detourParameters.truncation ≤ 1 := by decide +kernel
    have hkept := Truncation.le_sum_kept (hvalues ▸ by decide +kernel) hratio
      (hvalues ▸ List.mem_cons_self)
    rw [Truncation.rowSum_eq]
    exact (by decide +kernel : (divisionGuard : Rat) < 3 / 4).trans_le
      (hkept.trans (le_abs_self _))

/-- Truncation leaves the fourth point of the detour one weight, which is one. -/
theorem detour_sums_to_one :
    detour.IsDominant ∧ detourOptions.resolve = .ok detourParameters ∧
    (∀ x, detourOptions.maxRounds ≠ .real x) ∧ detourOptions.capacity = .nothing ∧
    ∀ session : Session Float, ∃ P report,
      ((prolongate detour detourParameters .nothing).run session).1 = .ok (P, report) ∧
      (∀ i, (∀ e ∈ P.matrix.row i, 0 ≤ e.value) ∧ (valuesOf (P.matrix.row i)).sum ≤ 1) ∧
      (valuesOf (P.matrix.row 3)).sum = 1 := by
  have hresolve : detourOptions.resolve = .ok detourParameters := by
    with_unfolding_all rfl
  have hrounds : ∀ x, detourOptions.maxRounds ≠ .real x := fun x heq => by cases heq
  refine ⟨isDominant_detour, hresolve, hrounds, rfl, fun session => ?_⟩
  obtain ⟨hexists, hall⟩ :=
    maximum_principle isDominant_detour hresolve hrounds rfl .nothing session
  obtain ⟨P, report, hrun⟩ := hexists (by decide)
  obtain ⟨hrows, hone⟩ := hall P report hrun
  refine ⟨P, report, hrun, hrows, ?_⟩
  obtain ⟨weights, buffer, hmeasured, hsplit, -, -⟩ :=
    exists_of_prolongation_eq_ok isValid_detourParameters
      ((gives_prolongate detourParameters detour .nothing).eq_ok hrun)
  -- the splitting does not depend on the session
  have hsplitting : P.splitting = detourSplitting :=
    Except.ok.inj (hsplit.symm.trans (split_detour hmeasured))
  apply hone 3
  · rw [hsplitting]
    rfl
  · decide +kernel
  · rw [hsplitting]
    exact fun x hx _ => guard_lt_of_compares_detour hx
  · rw [hsplitting]
    exact .inr ⟨rfl, 1, by decide +kernel⟩

end Multigrid
