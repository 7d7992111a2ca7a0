import Multigrid.Proofs.Hierarchy.MaximumPrinciple
import Multigrid.Proofs.Interpolation.ExtendedScaling

/-!
# The prolongator of a scaled operator

Equations may be multiplied by factors above zero, each by its own, without a change to what they
say.  The prolongator does not change either: the strong connections are the same ones, hence so are
the splitting and the points that interpolate, and every weight is a quotient in which the factors
of the rows are divided out.  Where there is no prolongator, there is none for both, for the same
reason.

This asks for one thing.  A denominator counts as zero up to a guard that is the same for all rows,
so a factor may lift it above the guard or push it below.  The tests against the guard have to come
out the same for the two operators.  That is asked of interpolation only: truncation tests sums of
weights, and the weights are the same by then.

## Main definitions

* `Parameters.guardTests`: the outcomes of the tests against the guard

## Main results

* `map_interpolated_rowScaled`, `interpolated_rowScaled`: interpolation
* `prolongation_rowScaled`, `prolongate_rowScaled`: the prolongator
-/

namespace Multigrid

variable {n : Nat} {d : Fin n → Rat}

/-! ## Interpolation -/

section Interpolated

/-- The outcomes of the tests against the guard of a division while point `i` is interpolated.  A
coarse point is not interpolated, and there are no tests without a table. -/
def Parameters.guardTests (p : Parameters Rat) (A : SparseMatrix Rat n n) (labels : Vector Label n)
    (i : Fin n) : List Bool :=
  let G := p.graph A
  if labels.get i = .coarse then []
  else match p.scheme with
    | .direct => Direct.guardTests G labels i
    | .extended =>
      match p.capacity >>= fun given => Extended.reachTable G labels p.firstOnly
        (Extended.chosenCapacity G labels p.firstOnly given) 0 i with
      | .ok table => Extended.guardTests G labels A.diagonal table i
      | .error _ => []

variable {p : Parameters Rat} {A : SparseMatrix Rat n n} {labels : Vector Label n}
  (hd : ∀ i, 0 < d i)

include hd

theorem graph_rowScaled : p.graph (A.rowScaled d) = (p.graph A).rowScaled d :=
  StrengthGraph.ofMatrix_rowScaled hd A p.tolerance

/-- Interpolation of a scaled operator fails if and only if the one of the operator does. -/
theorem map_interpolated_rowScaled :
    (interpolated (p.graph (A.rowScaled d)) labels (A.rowScaled d).diagonal p).map (fun _ => ()) =
      (interpolated (p.graph A) labels A.diagonal p).map fun _ => () := by
  rw [graph_rowScaled hd]
  unfold interpolated
  cases p.scheme with
  | direct =>
    simp only [Direct.prolongator_eq_ok (Direct.countsKept_exact _ labels)]
    show (.ok () : Except (Fault Rat) Unit) = .ok ()
    rfl
  | extended =>
    cases p.capacity with
    | error fault =>
      show (.error fault : Except (Fault Rat) Unit) = .error fault
      rfl
    | ok given =>
      show (Extended.prolongator _ labels _ p.firstOnly given).map _ =
        (Extended.prolongator _ labels _ p.firstOnly given).map _
      rw [Extended.map_prolongator_eq, Extended.map_prolongator_eq, Extended.rowSizes_rowScaled]

/-- Interpolation of a scaled operator gives what the one of the operator gives. -/
theorem interpolated_rowScaled
    (hguard : ∀ buffer, interpolated (p.graph A) labels A.diagonal p = .ok buffer →
      ∀ i, p.guardTests (A.rowScaled d) labels i = p.guardTests A labels i) :
    interpolated (p.graph (A.rowScaled d)) labels (A.rowScaled d).diagonal p =
      interpolated (p.graph A) labels A.diagonal p := by
  unfold interpolated at hguard ⊢
  simp only [Parameters.guardTests, graph_rowScaled hd] at hguard ⊢
  cases hscheme : p.scheme with
  | direct =>
    simp only [hscheme] at hguard
    refine Direct.prolongator_rowScaled hd fun i hi => ?_
    have htests := hguard _ (Direct.prolongator_eq_ok (Direct.countsKept_exact _ labels)) i
    rwa [if_neg hi, if_neg hi] at htests
  | extended =>
    refine bind_congr_of_ok fun given hcapacity => ?_
    simp only [hscheme, hcapacity] at hguard
    refine Extended.prolongator_rowScaled hd A.get_diagonal_rowScaled
      fun buffer hbuffer i hi t ht => ?_
    have htests := hguard buffer hbuffer i
    have htable : (Except.ok given >>= fun given =>
        Extended.reachTable (p.graph A) labels p.firstOnly
          (Extended.chosenCapacity (p.graph A) labels p.firstOnly given) 0 i) = .ok t := ht
    rw [if_neg hi, if_neg hi] at htests
    simp only [Extended.chosenCapacity_rowScaled, Extended.reachTable_rowScaled, htable] at htests
    exact htests

end Interpolated

/-! ## The prolongator -/

/-- Truncation fails for a ratio that is not admitted, whatever the matrix, and for no other one. -/
theorem truncatedIfAsked_cases (ratio : Rat) :
    (∀ {k : Nat} (P : SparseMatrix Rat n k), ∃ P', truncatedIfAsked P ratio = .ok P') ∨
      ∃ fault, ∀ {k : Nat} (P : SparseMatrix Rat n k), truncatedIfAsked P ratio = .error fault := by
  by_cases hpos : 0 < ratio
  · by_cases hone : ratio ≤ 1
    · exact .inl fun P => ⟨_, truncatedIfAsked_eq_ok P ⟨hpos.le, hone⟩⟩
    · have hcheck : (Truncation.checkRatio ratio : Except (Fault Rat) Unit) =
          .error (.truncationOutOfRange ratio) := if_neg fun hvalid => hone hvalid.2
      refine .inr ⟨.truncationOutOfRange ratio, fun P => ?_⟩
      rw [truncatedIfAsked, if_pos hpos, Truncation.truncated, Truncation.rowSizes, hcheck]
      rfl
  · exact .inl fun P => ⟨P, if_neg hpos⟩

section Prolongation

variable {p : Parameters Rat} {A : SparseMatrix Rat n n}

/-- The steps from a splitting to a prolongator. -/
def Parameters.completed (p : Parameters Rat) (A : SparseMatrix Rat n n) (splitting : Splitting n) :
    Except (Fault Rat) (Prolongation Rat n) := do
  let buffer ← interpolated (p.graph A) splitting.labels A.diagonal p
  return ⟨splitting,
    ← truncatedIfAsked (Prolongation.ofBuffer splitting buffer).matrix p.truncation⟩

theorem prolongation_eq_completed : p.prolongation A = (do
    let (graph, weights) ← A.measured p.tolerance p.influenceStart
    p.completed A (← graph.split weights p.maxRounds)) := by
  unfold Parameters.prolongation
  rw [map_value_eq, map_widen_eq]
  refine bind_congr_of_ok fun (graph, weights) hmeasured => ?_
  obtain ⟨-, -, rfl, -⟩ := SparseMatrix.exists_of_measured_eq_ok hmeasured
  rfl

theorem splitting_of_completed_eq_ok {splitting : Splitting n} {q : Prolongation Rat n}
    (h : p.completed A splitting = .ok q) : q.splitting = splitting := by
  obtain ⟨buffer, -, h⟩ := exists_of_bind_eq_ok h
  obtain ⟨matrix, -, h⟩ := exists_of_bind_eq_ok h
  cases h
  rfl

variable (hd : ∀ i, 0 < d i)

include hd

theorem completed_rowScaled {splitting : Splitting n}
    (hguard : ∀ q, p.completed A splitting = .ok q → ∀ i,
      p.guardTests (A.rowScaled d) splitting.labels i = p.guardTests A splitting.labels i) :
    p.completed (A.rowScaled d) splitting = p.completed A splitting := by
  rcases truncatedIfAsked_cases p.truncation with hok | ⟨fault, herror⟩
  · -- with a buffer there is a prolongator, so the tests are known to come out the same
    unfold Parameters.completed at hguard ⊢
    rw [interpolated_rowScaled hd]
    intro buffer hbuffer
    obtain ⟨P, hP⟩ := hok (Prolongation.ofBuffer splitting buffer).matrix
    exact hguard _ (bind_eq_ok hbuffer (bind_eq_ok hP rfl))
  · -- nothing is known about the tests, but what is written does not matter either
    have hforget (A : SparseMatrix Rat n n) : p.completed A splitting =
        (interpolated (p.graph A) splitting.labels A.diagonal p).map (fun _ => ()) >>= fun _ =>
          .error fault := by
      unfold Parameters.completed
      simp only [herror]
      cases interpolated (p.graph A) splitting.labels A.diagonal p <;> rfl
    rw [hforget, hforget, map_interpolated_rowScaled hd]

/-- The steps to a prolongator give the same for a scaled operator. -/
theorem prolongation_rowScaled
    (hguard : ∀ q, p.prolongation A = .ok q → ∀ i,
      p.guardTests (A.rowScaled d) q.splitting.labels i =
        p.guardTests A q.splitting.labels i) :
    p.prolongation (A.rowScaled d) = p.prolongation A := by
  rw [prolongation_eq_completed] at hguard ⊢
  rw [prolongation_eq_completed, SparseMatrix.measured_rowScaled hd]
  refine (bind_map_left _ _ _).trans (bind_congr_of_ok fun (graph, weights) hmeasured => ?_)
  show (graph.rowScaled d).split weights p.maxRounds >>= p.completed (A.rowScaled d) =
    graph.split weights p.maxRounds >>= p.completed A
  rw [StrengthGraph.split_rowScaled]
  refine bind_congr_of_ok fun splitting hsplit => completed_rowScaled hd fun q hq i => ?_
  rw [← splitting_of_completed_eq_ok hq]
  exact hguard q (bind_eq_ok hmeasured (bind_eq_ok hsplit hq)) i

/-- Scaled rows do not change the prolongator.  If there is one, and the tests against the guard
come out the same, the scaled operator has the same splitting and the same prolongator.  If there is
none, both fail with the same fault. -/
theorem prolongate_rowScaled (level level' : Datum) (session session' : Session Float)
    (hguard : ∀ P report, ((prolongate A p level).run session).1 = .ok (P, report) →
      ∀ i, p.guardTests (A.rowScaled d) P.splitting.labels i =
        p.guardTests A P.splitting.labels i) :
    ((prolongate (A.rowScaled d) p level').run session').1.map Prod.fst =
      ((prolongate A p level).run session).1.map Prod.fst := by
  rw [gives_prolongate p (A.rowScaled d) level' session', gives_prolongate p A level session]
  refine prolongation_rowScaled hd fun q hq => ?_
  have hgives := gives_prolongate p A level
  rw [hq] at hgives
  obtain ⟨⟨P, report⟩, hrun, rfl⟩ := hgives.exists_ok session
  exact hguard P report hrun

end Prolongation

/-- Factors for the rows of the detour. -/
def detourFactors : Fin 5 → Rat := ![2, 1 / 3, 5, 7 / 2, 1]

/-- Scaled rows do not change the prolongator of the detour, whose fourth point draws on the row of
the second one. -/
theorem prolongate_rowScaled_detour :
    (∀ i, 0 < detourFactors i) ∧ ∀ session session' : Session Float, ∃ P report,
      ((prolongate detour detourParameters .nothing).run session).1 = .ok (P, report) ∧
      P.splitting = detourSplitting ∧
      (∀ i, detourParameters.guardTests (detour.rowScaled detourFactors) P.splitting.labels i =
        detourParameters.guardTests detour P.splitting.labels i) ∧
      ((prolongate (detour.rowScaled detourFactors) detourParameters .nothing).run
        session').1.map Prod.fst = .ok P := by
  have hpos : ∀ i, 0 < detourFactors i := by decide +kernel
  refine ⟨hpos, fun session session' => ?_⟩
  obtain ⟨q, hq⟩ := Parameters.exists_prolongation_eq_ok isValid_detourParameters rfl (by decide)
    detour
  obtain ⟨weights, -, hmeasured, hsplit, -, -⟩ :=
    exists_of_prolongation_eq_ok isValid_detourParameters hq
  have hsplitting : q.splitting = detourSplitting :=
    Except.ok.inj (hsplit.symm.trans (split_detour hmeasured))
  have htests : ∀ i, detourParameters.guardTests (detour.rowScaled detourFactors)
      q.splitting.labels i = detourParameters.guardTests detour q.splitting.labels i := by
    rw [hsplitting]
    decide +kernel
  have hgives := gives_prolongate detourParameters detour .nothing
  rw [hq] at hgives
  obtain ⟨⟨P, report⟩, hrun, rfl⟩ := hgives.exists_ok session
  refine ⟨P, report, hrun, hsplitting, htests, ?_⟩
  rw [prolongate_rowScaled hpos .nothing .nothing session session', hrun]
  · rfl
  · intro P' report' hrun'
    obtain rfl := congrArg Prod.fst (Except.ok.inj (hrun'.symm.trans hrun))
    exact htests

end Multigrid
