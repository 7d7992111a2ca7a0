import Multigrid.Proofs.Hierarchy.Summary

/-!
# Extensions that complete

An extension checks nothing once it has a prolongator, but there is work left that might fail: the
product is formed, a summary is printed if it is asked for, and the next level is made.  None of it
does.  The operator is square, the report belongs to a prolongator, and the next level is not empty.
So an extension fails exactly if there is no prolongator, with the same fault, before the hierarchy
has been touched.

## Main definitions

* `Setup.Fails`: computations that fail

## Main results

* `Prolongation.exists_settle_eq_ok`: from a prolongator to the next level nothing fails
* `Hierarchy.fails_extend`, `Hierarchy.completes_extend`: an extension without a prolongator, and
  one with it
-/

namespace Multigrid

namespace Setup

variable {T ε α β : Type} {post post' : α → Prop} {fault : ε}

/-- The computation fails in every session. -/
def Fails (body : Setup T ε α) (fault : ε) : Prop :=
  ∀ session, (body.run session).1 = .error fault

theorem Fails.bind {body : Setup T ε α} {next : α → Setup T ε β} (h : body.Fails fault) :
    (body >>= next).Fails fault := by
  intro session
  change ((ExceptT.bindCont next (body.run session).1).run (body.run session).2).1 = _
  rw [h session]
  rfl

theorem Gives.fails {body : Setup T ε α} {part : α → β} (h : body.Gives part (.error fault)) :
    body.Fails fault := by
  intro session
  have hsession := h session
  cases hrun : (body.run session).1 with
  | error fault' =>
    rw [hrun] at hsession
    exact congrArg _ (Except.error.inj hsession)
  | ok a =>
    rw [hrun] at hsession
    cases hsession

theorem Completes.and {body : Setup T ε α} (h : body.Completes post) (h' : body.Ensures post') :
    body.Completes fun a => post a ∧ post' a := by
  intro session
  obtain ⟨a, hrun, ha⟩ := h session
  exact ⟨a, hrun, ha, h' session a hrun⟩

theorem Completes.exists_map_run_eq_ok {body : Setup T ε α} (h : body.Completes post) (f : α → β)
    (session : Session T) : ∃ b, (body.run session).1.map f = .ok b := by
  obtain ⟨a, hrun, -⟩ := h session
  exact ⟨f a, by rw [hrun]; rfl⟩

end Setup

section Steps

variable {V W : Type} [Arith V] [Arith W] [Storage V V W] {p : Parameters W}

omit [Arith V] [Storage V V W] in
/-- A summary is printed or not asked for. -/
theorem completes_printSummary {report : LevelReport} (h : report.IsPrintable) :
    (printSummary p report).Completes fun _ => True := by
  obtain ⟨text, htext⟩ := h.exists_summary_eq_ok (R := W) "PMIS" ""
  unfold printSummary
  split_ifs
  · exact (Setup.Completes.ofResult htext rfl).bind fun _ _ session => ⟨(), rfl, trivial⟩
  · exact .pure trivial

namespace Prolongation

variable {n : Nat} {q : Prolongation V n}

theorem completes_nextLevel (A : SparseMatrix V n n) (hpos : q.splitting.coarseCount ≠ 0)
    {report : LevelReport} (h : report.IsPrintable) :
    (q.nextLevel A p report).Completes fun _ => True := by
  obtain ⟨level, hlevel⟩ : ∃ level, Level.ofOperator (A.galerkin q.matrix).2 =
      (.ok level : Except (Fault W) (Level V)) := ⟨_, if_neg hpos⟩
  refine (completes_printSummary h).bind fun _ _ => ?_
  exact (Setup.Completes.ofResult hlevel rfl).bind fun _ _ => .pure trivial

/-- From a prolongator to the next level nothing fails. -/
theorem exists_settle_eq_ok (q : Prolongation V n) (A : SparseMatrix V n n) (p : Parameters W)
    {report : LevelReport} (h : report.IsPrintable) (session : Session Float) :
    ∃ next, (q.settle (.ok A) p report session).1.2 = .ok next ∧ q.Settled A W next := by
  obtain ⟨next, hnext⟩ : ∃ next, (q.settle (.ok A) p report session).1.2 = .ok next := by
    by_cases hsize : q.splitting.coarseCount = 0 ∨ n ≤ q.splitting.coarseCount
    · -- a summary is all that is left to do
      unfold settle
      dsimp only
      rw [if_pos hsize]
      exact (completes_printSummary h).exists_map_run_eq_ok _ session
    · obtain ⟨timings, session', heq⟩ := exists_settle_eq A p hsize report session
      rw [heq]
      have hpos : q.splitting.coarseCount ≠ 0 := by omega
      have hcompletes := completes_nextLevel (p := p) A hpos (h.withTimings timings)
      exact hcompletes.exists_map_run_eq_ok _ session'
  exact ⟨next, hnext, q.settled A p report session hnext⟩

end Prolongation

namespace Hierarchy

variable {h : Hierarchy V}

/-- Without a prolongator there is no extension. -/
theorem fails_extend {fault : Fault W}
    (hq : p.prolongation h.last.operator = (.error fault : Except (Fault W) (Prolongation V _))) :
    (h.extend p).Fails fault := by
  have hgives := gives_prolongate p h.last.operator (.integer h.upper.length)
  rw [hq] at hgives
  exact hgives.fails.bind

/-- With a prolongator an extension completes, and it is a step. -/
theorem completes_extend {q : Prolongation V h.last.size}
    (hq : p.prolongation h.last.operator = .ok q) :
    (h.extend p).Completes fun (extended, h') => Step p h extended h' := by
  -- an extension that completes is a step, so only its completion is left to show
  have hcompletes : (h.extend p).Completes fun _ => True := by
    have hgives := gives_prolongate p h.last.operator (.integer h.upper.length)
    rw [hq] at hgives
    refine (hgives.completes.and (ensures_prolongateWithin_isPrintable _ _ p _)).bind ?_
    rintro ⟨q', report⟩ ⟨-, hreport⟩
    have hsettle : (liftM (q'.settle (.ok h.last.operator) p report) :
        Setup Float (Fault W) _).Completes fun result => ∃ next, result.2 = .ok next := by
      refine .lift fun session => ?_
      obtain ⟨next, hnext, -⟩ := q'.exists_settle_eq_ok h.last.operator p hreport session
      exact ⟨next, hnext⟩
    refine hsettle.bind ?_
    rintro ⟨report, outcome⟩ ⟨next, houtcome⟩
    -- without a further level the hierarchy gets its report, and otherwise the level as well
    refine (Setup.Completes.ofResult houtcome rfl).bind fun _ _ => ?_
    split
    · exact .pure trivial
    · exact .pure trivial
  intro session
  obtain ⟨result, hrun, -⟩ := hcompletes session
  exact ⟨result, hrun, ensures_extend h p session result hrun⟩

/-- A prolongator from some of the points, but not from all of them, leads to one more level. -/
theorem Step.sizes_eq {h' : Hierarchy V} {extended : Bool} {q : Prolongation V h.last.size}
    (hstep : Step p h extended h') (hq : p.prolongation h.last.operator = .ok q)
    (hpos : 0 < q.splitting.coarseCount) (hlt : q.splitting.coarseCount < h.last.size) :
    extended = true ∧ h'.upper.map Level.size = h.levels.map Level.size ∧
      h'.last.size = q.splitting.coarseCount := by
  cases hstep with
  | stays _ hq' hstuck =>
    obtain rfl := Except.ok.inj (hq'.symm.trans hq)
    omega
  | grows _ hq' _ hnext =>
    obtain rfl := Except.ok.inj (hq'.symm.trans hq)
    obtain ⟨-, rfl⟩ := Level.of_ofOperator_eq_ok hnext
    refine ⟨rfl, ?_, rfl⟩
    rw [levels, List.map_append, List.map_append]
    rfl

end Hierarchy

end Steps

end Multigrid
