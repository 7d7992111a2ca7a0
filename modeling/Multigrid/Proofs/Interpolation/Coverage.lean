import Multigrid.Proofs.Hierarchy.Outcome
import Multigrid.Proofs.Interpolation.Rows
import Multigrid.Proofs.Splitting.Justification
import Multigrid.Proofs.Strength.Influence

/-!
# Points without interpolation

A point that weighs less than one becomes fine without a look at its neighbours, so none of them
need be coarse.  Its strong neighbours have influence, as it is itself influenced by them, and weigh
at least one.  When every point is decided, such a neighbour is coarse, or it was closed by a coarse
point to which it has a strong connection.  Two strong connections are what extended interpolation
looks at, so the point is interpolated all the same, unless it has no strong connection at all.

## Main results

* `Extended.exists_reaches`: a strong connection leads to a coarse point
* `Extended.row_eq_nil_iff`: the rows of a prolongator that are empty
-/

namespace Multigrid

namespace Extended

variable {α S V W R : Type} {n : Nat}

section Reach

variable {G : StrengthGraph α n} {labels : Vector Label n}

/-- A point with a strong entry in the column of a coarse point hands on to some coarse point. -/
theorem exists_handsOn (firstOnly : Bool) {k l : Fin n} (hkl : G.IsStrong k l)
    (hl : labels.get l = .coarse) :
    ∃ m, HandsOn G labels firstOnly k m := by
  have hne : handedOn G labels firstOnly k ≠ [] := by
    obtain ⟨c, hc, hstrong, rfl⟩ := hkl
    have hmem : c ∈ strongCoarse G labels k := by
      rw [strongCoarse, List.mem_filter]
      exact ⟨StrengthGraph.mem_strongRow.mpr ⟨hc, hstrong⟩, decide_eq_true hl⟩
    have hpoints : (strongCoarse G labels k).map (·.column) ≠ [] :=
      List.ne_nil_of_mem (List.mem_map_of_mem hmem)
    rw [handedOn]
    split_ifs
    · simpa using hpoints
    · exact hpoints
  obtain ⟨m, hm⟩ := List.exists_mem_of_ne_nil _ hne
  exact ⟨m, mem_handedOn.mp hm⟩

/-- In a splitting that has converged, a point with a strong connection reaches a coarse point. -/
theorem exists_reaches (firstOnly : Bool) {weights : Vector Float32 n} {s : Splitting n}
    {limit : Option Int}
    (hsplit : G.split weights limit = (.ok s : Except (Fault R) (Splitting n)))
    (hconverged : s.converged = true) {i j : Fin n} (hij : G.IsStrong i j) (hne : j ≠ i)
    (hone : 1 ≤ weights.get j) : ∃ l, Reaches G s.labels firstOnly i l := by
  by_cases hj : s.labels.get j = .coarse
  · exact ⟨j, .direct hij hne hj⟩
  · -- a neighbour that is not coarse was closed by a coarse point, and hands on to one
    obtain ⟨l, hjl, hl⟩ := StrengthGraph.exists_coarse_of_split hsplit hconverged hj hone
    obtain ⟨m, hm⟩ := exists_handsOn firstOnly hjl hl
    exact ⟨m, .handedOn hij hne hj hm⟩

end Reach

section Rows

variable [Arith V] [Arith W] [Storage V V W]

theorem HasReachedColumns.row_eq_nil_iff_reaches {G : StrengthGraph V n} {labels : Vector Label n}
    {firstOnly : Bool} {P : SparseMatrix V n (coarseCount labels)}
    (h : HasReachedColumns G labels firstOnly P) (i : Fin n) :
    P.row i = [] ↔ labels.get i ≠ .coarse ∧ ∀ l, ¬ Reaches G labels firstOnly i l := by
  by_cases hi : labels.get i = .coarse
  · simp [h.unit hi, hi]
  · constructor
    · intro hrow
      refine ⟨hi, fun l hl => ?_⟩
      have hmem := (h.mem_iff hi ⟨_, coarseNumbers_lt_coarseCount hl.coarse⟩).mpr ⟨l, hl, rfl⟩
      rw [hrow] at hmem
      cases hmem
    · rintro ⟨-, hnone⟩
      -- an entry has the column of a point that is reached
      rw [List.eq_nil_iff_forall_not_mem]
      intro e he
      obtain ⟨l, hl, -⟩ := (h.mem_iff hi e.column).mp (List.mem_map_of_mem he)
      exact hnone l hl

variable [Storage S V W]

/-- Extended interpolation of a splitting that has converged.  Unless a capacity is given there is a
prolongator, and whatever the capacity, the rows that are empty before truncation are those of fine
points without a strong entry. -/
theorem row_eq_nil_iff {A : SparseMatrix S n n} {p : Parameters W} (hscheme : p.scheme = .extended)
    {start : InfluenceStart} (hstart : start.IsNotNegative) {graph : StrengthGraph V n}
    {weights : Vector Float32 n}
    (hmeasured : (A.map Storage.value).measured p.tolerance start = .ok (graph, weights))
    {s : Splitting n}
    (hsplit : graph.split weights p.maxRounds = (.ok s : Except (Fault W) (Splitting n)))
    (hconverged : s.converged = true) (session : Session Float) :
    (p.capacity = .ok none → n ≤ 0x8000000000000000 →
      ∃ buffer extra, ((interpolate graph s.labels (A.diagonal.map Storage.widen) (.full n) p).run
        session).1 = .ok (buffer, extra)) ∧
    ∀ buffer extra, ((interpolate graph s.labels (A.diagonal.map Storage.widen) (.full n) p).run
        session).1 = .ok (buffer, extra) →
      ∀ i, (Prolongation.ofBuffer s buffer).matrix.row i = [] ↔
        s.labels.get i = .fine ∧ ∀ c ∈ graph.row i, c.strong = false := by
  have hgives := gives_interpolate graph s.labels (A.diagonal.map Storage.widen) p
  unfold interpolated at hgives
  simp only [hscheme] at hgives
  constructor
  · intro hcapacity hn
    obtain ⟨buffer, hbuffer⟩ := exists_prolongator_eq_ok (R := W) graph s.labels
      (A.diagonal.map Storage.widen) p.firstOnly hn
    rw [bind_eq_ok hcapacity hbuffer] at hgives
    obtain ⟨found, hrun, -⟩ := hgives.exists_ok session
    exact ⟨found.1, found.2, hrun⟩
  · intro buffer extra hrun i
    obtain ⟨given, -, hbuffer⟩ := exists_of_bind_eq_ok (hgives.eq_ok hrun)
    have hcolumns : HasReachedColumns graph s.labels p.firstOnly (coarseColumns s.labels buffer) :=
      hasReachedColumns_of_prolongator_eq_ok hbuffer
    refine (hcolumns.row_eq_nil_iff_reaches i).trans ?_
    constructor
    · rintro ⟨hi, hnone⟩
      refine ⟨((StrengthGraph.label_cases_of_split hsplit i).resolve_left
        ((StrengthGraph.converged_iff_of_split hsplit).mp hconverged i)).resolve_left hi, ?_⟩
      intro c hc
      by_contra hstrong
      have hij : graph.IsStrong i c.column := ⟨c, hc, by simpa using hstrong, rfl⟩
      obtain ⟨l, hl⟩ := exists_reaches p.firstOnly hsplit hconverged hij
        (SparseMatrix.ne_of_isStrong_of_measured hmeasured hij)
        (SparseMatrix.one_le_of_measured hmeasured hstart hij)
      exact hnone l hl
    · rintro ⟨hi, hweak⟩
      refine ⟨by simp [hi], ?_⟩
      -- both ways of reaching a point begin with a strong entry
      rintro l (⟨⟨c, hc, hstrong, -⟩, -, -⟩ | ⟨⟨c, hc, hstrong, -⟩, -, -, -⟩)
      all_goals
        rw [hweak c hc] at hstrong
        cases hstrong

/-- Four points, of which the first has a strong entry for the second and that one for the third. -/
def tail : SparseMatrix Rat 4 4 :=
  ⟨#v[[⟨0, 2⟩, ⟨1, -1⟩], [⟨1, 2⟩, ⟨2, -1⟩], [⟨2, 2⟩], [⟨3, 2⟩]]⟩

/-- Start values by which the third point of the tail outweighs the second one. -/
def tailStart : InfluenceStart := .given [0, 0, 0.5, 0]

/-- The tail with its strong entries. -/
def tailGraph : StrengthGraph Rat 4 :=
  ⟨#v[[⟨⟨0, 2⟩, false⟩, ⟨⟨1, -1⟩, true⟩], [⟨⟨1, 2⟩, false⟩, ⟨⟨2, -1⟩, true⟩], [⟨⟨2, 2⟩, false⟩],
    [⟨⟨3, 2⟩, false⟩]]⟩

/-- The splitting of the tail, in which only the third point is coarse. -/
def tailSplitting : Splitting 4 := ⟨#v[.fine, .fine, .coarse, .fine], 1, true⟩

/-- The influence weights of the tail. -/
def tailWeights : Vector Float32 4 := #v[0, 1, 1.5, 0]

/-- The first point of the tail has no influence and no coarse neighbour, but its row is not empty.
The last point has neither influence nor a strong entry, and its row is empty. -/
theorem tail_last_row_empty :
    ({} : Parameters Rat).scheme = .extended ∧ tailStart.IsNotNegative ∧
    (tail.map Storage.value).measured ({} : Parameters Rat).tolerance tailStart =
      .ok (tailGraph, tailWeights) ∧
    (tailGraph.split tailWeights ({} : Parameters Rat).maxRounds :
      Except (Fault Rat) (Splitting 4)) = .ok tailSplitting ∧
    tailSplitting.converged = true ∧ ∀ session : Session Float, ∃ buffer extra,
      ((interpolate tailGraph tailSplitting.labels (tail.diagonal.map Storage.widen) (.full 4)
        ({} : Parameters Rat)).run session).1 = .ok (buffer, extra) ∧
      (Prolongation.ofBuffer tailSplitting buffer).matrix.row 0 ≠ [] ∧
      (Prolongation.ofBuffer tailSplitting buffer).matrix.row 3 = [] := by
  have hstart : tailStart.IsNotNegative := by
    have hall : ∀ x ∈ ([0, 0, 0.5, 0] : List Float32), 0 ≤ x := by decide
    exact hall
  have hmeasured : (tail.map Storage.value).measured ({} : Parameters Rat).tolerance tailStart =
      .ok (tailGraph, tailWeights) := by
    with_unfolding_all rfl
  have hsplit : (tailGraph.split tailWeights ({} : Parameters Rat).maxRounds :
      Except (Fault Rat) (Splitting 4)) = .ok tailSplitting := by
    with_unfolding_all rfl
  refine ⟨rfl, hstart, hmeasured, hsplit, rfl, fun session => ?_⟩
  obtain ⟨hexists, hrows⟩ := row_eq_nil_iff rfl hstart hmeasured hsplit rfl session
  obtain ⟨buffer, extra, hrun⟩ := hexists rfl (by decide)
  refine ⟨buffer, extra, hrun, ?_, ?_⟩
  · rw [Ne, hrows buffer extra hrun]
    decide
  · rw [hrows buffer extra hrun]
    decide

end Rows

end Extended

end Multigrid
