import Multigrid.Hierarchy.Trial
import Multigrid.Proofs.Hierarchy.Faults
import Multigrid.Proofs.Hierarchy.Levels
import Multigrid.Proofs.Sparse.ReadBack

/-!
# Attempts to add a level

An attempt to add a level to a hierarchy changes the last level in two places: it notes a report
once there is a prolongator, and what leads to the next level once there is a product.  Between
these two and the end there is more to do, but nothing that fails.  So an attempt either fails
before it has changed anything, or it goes through: it leaves a report and nothing else if no point
is coarse or all of them are, and otherwise a report, a coarsening and one more level below.  With
options that pass the checks, it fails for one of the reasons for which there is no prolongator: a
seed that is none, or a capacity that is none or too small.

What is left is a valid hierarchy again.  This is so after any number of attempts, in whatever order
some of them fail and others do not, and no attempt changes a level that is already followed by
another one.

## Main definitions

* `Hierarchy.IsValid`: hierarchies in which every level but the last one leads to the next
* `Hierarchy.GrowsTo`: one more level, and nothing else that is new
* `Trial.hierarchy?`, `Trial.groundwork`: the levels of a trial, and the part of an attempt that may
  fail
* `Trial.Outcome`: the three outcomes of an attempt

## Main results

* `Trial.outcome_attempt`: every attempt has one of the outcomes
* `Trial.lateFault_of_attempt`: why an attempt with checked options fails
* `Trial.Outcome.exists_isValid`: what is left is a valid hierarchy
* `Trial.attempts_all_or_nothing`: single attempts, and any number of them
-/

namespace Multigrid

section Levels

variable {V W : Type} [Arith V] [Arith W] [Storage V V W]

/-! ## Valid hierarchies -/

/-- There is a report on level `l`, and a coarsening that leads to level `next`. -/
def Level.LeadsTo (l next : Level V) : Prop :=
  l.report.isSome = true ∧ ∃ c, l.coarsening = some c ∧ c.LeadsTo l.operator next.square

namespace Hierarchy

/-- Every level but the last one leads to the next one, and no level is empty. -/
structure IsValid (h : Hierarchy V) : Prop where
  /-- Consecutive levels. -/
  linked : h.levels.IsChain Level.LeadsTo
  /-- The last level leads nowhere. -/
  isLast : h.last.coarsening = none
  /-- There are points on every level. -/
  pos : ∀ l ∈ h.levels, 0 < l.size

/-- Hierarchy `h'` has one level more than `h`.  The level that was the last one has a report and
leads to the new one; apart from that, the levels of `h` are as they were. -/
structure GrowsTo (h h' : Hierarchy V) : Prop where
  /-- The levels above the new one. -/
  upper : ∃ (report : LevelReport) (c : Coarsening V h.last.size),
    c.LeadsTo h.last.operator h'.last.square ∧
    h'.upper = h.upper ++ [{ h.last with report := some report, coarsening := some c }]
  /-- There are points. -/
  pos : 1 ≤ h'.last.size
  /-- There are fewer points than before. -/
  lt : h'.last.size < h.last.size
  /-- The density of the new operator. -/
  density : h'.last.density =
    Float.ofNat h'.last.operator.entryCount / Float.ofNat (h'.last.size * h'.last.size)
  /-- Nothing else is known of the new level. -/
  isNew : h'.last.report = none ∧ h'.last.coarsening = none

variable {h h' : Hierarchy V} {p : Parameters W}

omit [Arith W] in
/-- A prolongator from some of the points leads to a hierarchy with one more level. -/
theorem growsTo_of_ofOperator {q : Prolongation V h.last.size} {next : Level V} {R : Type}
    (hlt : q.splitting.coarseCount < h.last.size)
    (hnext : Level.ofOperator (h.last.operator.galerkin q.matrix).2 =
      (.ok next : Except (Fault R) (Level V))) (report : LevelReport) :
    h.GrowsTo ⟨h.upper ++ [{ h.last with
      report := some report, coarsening := some q.coarsening }], next⟩ := by
  obtain ⟨hne, rfl⟩ := Level.of_ofOperator_eq_ok hnext
  have hpos := Nat.pos_of_ne_zero hne
  exact {
    upper := ⟨report, q.coarsening, q.leadsTo_coarsening h.last.operator hpos hlt, rfl⟩
    pos := hpos
    lt := hlt
    density := rfl
    isNew := ⟨rfl, rfl⟩ }

omit [Arith W] in
theorem isChain_levels_iff : h.levels.IsChain Level.LeadsTo ↔
    h.upper.IsChain Level.LeadsTo ∧ ∀ l ∈ h.upper.getLast?, l.LeadsTo h.last := by
  simp [levels, List.isChain_append]

omit [Arith W] in
/-- A hierarchy stays valid if there is another report on its last level. -/
theorem IsValid.withReport (hvalid : h.IsValid) (report : LevelReport) :
    (h.withReport report).IsValid where
  linked := by
    obtain ⟨hupper, hlast⟩ := isChain_levels_iff.mp hvalid.linked
    exact isChain_levels_iff.mpr ⟨hupper, hlast⟩
  isLast := hvalid.isLast
  pos := by
    intro l hl
    rcases List.mem_append.mp hl with hl | hl
    · exact hvalid.pos l (List.mem_append_left _ hl)
    · rw [List.mem_singleton.mp hl]
      exact hvalid.pos h.last (List.mem_append_right _ (List.mem_singleton_self _))

omit [Arith W] in
/-- A hierarchy stays valid if it gets one more level. -/
theorem IsValid.growsTo (hvalid : h.IsValid) (hgrows : h.GrowsTo h') : h'.IsValid := by
  obtain ⟨report, c, hleads, hupper⟩ := hgrows.upper
  obtain ⟨hchain, hlast⟩ := isChain_levels_iff.mp (hvalid.withReport report).linked
  refine ⟨isChain_levels_iff.mpr ?_, hgrows.isNew.2, ?_⟩
  · rw [hupper]
    refine ⟨List.isChain_append.mpr ⟨hchain, List.isChain_singleton _, ?_⟩, ?_⟩
    · -- the level above the old last one sees its operator only
      intro l hl next hnext
      obtain rfl := Option.some.inj hnext
      exact hlast l hl
    · intro l hl
      rw [List.getLast?_concat] at hl
      obtain rfl := Option.some.inj hl
      exact ⟨rfl, c, rfl, hleads⟩
  · intro l hl
    rw [levels, hupper] at hl
    rcases List.mem_append.mp hl with hl | hl
    · rcases List.mem_append.mp hl with hl | hl
      · exact hvalid.pos l (List.mem_append_left _ hl)
      · rw [List.mem_singleton.mp hl]
        exact hvalid.pos h.last (List.mem_append_right _ (List.mem_singleton_self _))
    · rw [List.mem_singleton.mp hl]
      exact hgrows.pos

end Hierarchy

end Levels

/-! ## Outcomes -/

namespace StoredMatrix

variable {S R : Type} {A : StoredMatrix S} {M : SparseMatrix S A.rowCount A.rowCount}

theorem rowCount_eq_columnCount (hM : A.square = (.ok M : Except (Fault R) _)) :
    A.rowCount = A.columnCount := by
  by_contra hne
  have hfault : A.square = (.error .unequalLengths : Except (Fault R) _) := by
    unfold square
    rw [if_pos hne]
    rfl
  cases hfault.symm.trans hM

/-- There is as much of a square matrix as there is of its operator. -/
theorem extent_eq (hM : A.square = (.ok M : Except (Fault R) _)) : A.extent = .full A.rowCount := by
  unfold extent lineCount Extent.full
  rw [← rowCount_eq_columnCount hM, ite_self, min_self]

/-- The stored lines of a square matrix are the rows of an operator. -/
theorem exists_operator_eq_ok (hM : A.square = (.ok M : Except (Fault R) _)) :
    ∃ B, A.operator = (.ok B : Except (Fault R) (SparseMatrix S A.rowCount A.rowCount)) := by
  have hsize := rowCount_eq_columnCount hM
  unfold square at hM
  rw [if_neg (not_not.mpr hsize)] at hM
  obtain ⟨lines, hlines, -⟩ := exists_of_bind_eq_ok hM
  obtain ⟨_, -, hlines⟩ := exists_of_bind_eq_ok hlines
  obtain ⟨_, horder, hlines⟩ := exists_of_bind_eq_ok hlines
  -- kernels count columns below zero from the end, and a matrix has none of them
  exact ⟨lines, bind_eq_ok horder (Compressed.toMatrixBy_eq_ok_of_imp
    (fun _ _ => pointOf?_of_columnOf?_eq_some) hlines)⟩

end StoredMatrix

namespace Trial

variable {S V W α : Type} [Arith V] [Arith W] [Storage S V W] [Storage V V W]

/-- The levels of a trial on a square matrix. -/
def hierarchy? : Trial S V → Option (Hierarchy V)
  | table _ => none
  | stored A report =>
    (A.square : Except (Fault W) (SparseMatrix S A.rowCount A.rowCount)).toOption.map fun M =>
      ⟨[], { size := A.rowCount, operator := M.map Storage.value, density := A.density, report }⟩
  | built h => some h

omit [Arith V] [Arith W] [Storage V V W] in
/-- A stored matrix with levels is a square one. -/
theorem exists_square_of_hierarchy? {A : StoredMatrix S} {report : Option LevelReport}
    {h : Hierarchy V} (ht : (stored A report : Trial S V).hierarchy? = some h) :
    ∃ M, A.square = (.ok M : Except (Fault W) (SparseMatrix S A.rowCount A.rowCount)) ∧
      ⟨[], { size := A.rowCount, operator := M.map Storage.value, density := A.density, report }⟩ =
        h := by
  obtain ⟨M, hM, hlevels⟩ := Option.map_eq_some_iff.mp ht
  refine ⟨M, ?_, hlevels⟩
  cases hsquare : (A.square : Except (Fault W) (SparseMatrix S A.rowCount A.rowCount)) with
  | error fault =>
    rw [hsquare] at hM
    cases hM
  | ok M' =>
    rw [hsquare] at hM
    cases hM
    rfl

/-- The part of an attempt that may fail: the options are checked, and a prolongator is found. -/
def groundwork (t : Trial S V) (options : Except (Fault W) (Options W)) :
    Except (Fault W) Unit := do
  let p ← options >>= Options.resolve
  match t with
  | table _ => throw .notCompressed
  | stored A _ =>
    let _ : Prolongation V A.rowCount ← A.operator >>= p.prolongation
  | built h =>
    let _ : Prolongation V h.last.size ← p.prolongation h.last.operator

/-- What an attempt makes of a trial with the levels `h`. -/
inductive Outcome (t : Trial S V) (h : Hierarchy V) (options : Except (Fault W) (Options W)) :
    Except (Fault W) Bool → Trial S V → Prop where
  /-- The attempt fails, and nothing has changed. -/
  | failed {fault : Fault W} (groundwork : t.groundwork options = .error fault) :
      Outcome t h options (.error fault) t
  /-- There is no further level.  The last level has a new report. -/
  | stayed {t' : Trial S V} (report : LevelReport) (groundwork : t.groundwork options = .ok ())
      (levels : t'.hierarchy? = some (h.withReport report)) : Outcome t h options (.ok false) t'
  /-- There is one more level. -/
  | grown {t' : Trial S V} {h' : Hierarchy V} (groundwork : t.groundwork options = .ok ())
      (levels : t'.hierarchy? = some h') (grows : h.GrowsTo h') : Outcome t h options (.ok true) t'

variable {t t' : Trial S V} {h h' : Hierarchy V} {options : Except (Fault W) (Options W)}
  {result : Except (Fault W) Bool}

/-- Every outcome of an attempt on a valid hierarchy is one, and all levels above the last one are
the same. -/
theorem Outcome.exists_isValid (houtcome : t.Outcome h options result t')
    (ht : t.hierarchy? = some h) (hvalid : h.IsValid) :
    ∃ h', t'.hierarchy? = some h' ∧ h'.IsValid ∧ h.upper <+: h'.upper := by
  cases houtcome with
  | failed _ => exact ⟨h, ht, hvalid, List.prefix_rfl⟩
  | stayed report _ hlevels => exact ⟨_, hlevels, hvalid.withReport report, List.prefix_rfl⟩
  | grown _ hlevels hgrows =>
    obtain ⟨_, _, -, hupper⟩ := hgrows.upper
    exact ⟨_, hlevels, hvalid.growsTo hgrows, ⟨_, hupper.symm⟩⟩

theorem Outcome.groundwork_eq_error {fault : Fault W}
    (houtcome : t.Outcome h options (.error fault) t') :
    t.groundwork options = .error fault := by
  cases houtcome with
  | failed hgroundwork => exact hgroundwork

theorem Outcome.of_error (houtcome : t.Outcome h options result t') {fault : Fault W}
    (hfault : t.groundwork options = .error fault) : result = .error fault ∧ t' = t := by
  cases houtcome with
  | failed hgroundwork =>
    obtain rfl := Except.error.inj (hgroundwork.symm.trans hfault)
    exact ⟨rfl, rfl⟩
  | stayed _ hgroundwork _ => cases hgroundwork.symm.trans hfault
  | grown hgroundwork _ _ => cases hgroundwork.symm.trans hfault

/-! ## Attempts -/

/-- What follows a computation that may fail depends on its result. -/
theorem fst_run_bind {T ε β γ : Type} {body : Setup T ε β} {session : Session T}
    {result : Except ε β} (hrun : (body.run session).1 = result)
    (next : Except ε β → StateM (Session T) γ) :
    ((body.run >>= next) session).1 = (next result (body.run session).2).1 := by
  rw [← hrun]
  rfl

section Built

variable {session : Session Float} {extended : Bool} {fault : Fault W}

theorem attempt_built (h : Hierarchy V) (options : Except (Fault W) (Options W))
    (session : Session Float) : ((built h : Trial S V).attempt options session).1 =
      ((h.attempt options session).1.1, built (h.attempt options session).1.2) := rfl

theorem attempt_built_of_ok
    (hrun : ((Setup.ofResult (options >>= Options.resolve) >>= h.extend).run session).1 =
      .ok (extended, h')) :
    ((built h : Trial S V).attempt options session).1 = (.ok extended, built h') := by
  have hattempt : (h.attempt options session).1 = (.ok extended, h') := fst_run_bind hrun _
  rw [attempt_built, hattempt]

theorem attempt_built_of_error
    (hrun : ((Setup.ofResult (options >>= Options.resolve) >>= h.extend).run session).1 =
      .error fault) :
    ((built h : Trial S V).attempt options session).1 = (.error fault, built h) := by
  have hattempt : (h.attempt options session).1 = (.error fault, h) := fst_run_bind hrun _
  rw [attempt_built, hattempt]

end Built

theorem outcome_attempt_built (h : Hierarchy V) (options : Except (Fault W) (Options W))
    (session : Session Float) : (built h : Trial S V).Outcome h options
      ((built h : Trial S V).attempt options session).1.1
      ((built h : Trial S V).attempt options session).1.2 := by
  cases hp : options >>= Options.resolve with
  | error fault =>
    -- there are no parameters to extend the hierarchy with
    have hrun : ((Setup.ofResult (options >>= Options.resolve) >>= h.extend).run session).1 =
        .error fault := by
      rw [hp]
      rfl
    rw [attempt_built_of_error hrun]
    exact .failed (bind_eq_error hp)
  | ok p =>
    have hextend : Setup.ofResult (options >>= Options.resolve) >>= h.extend = h.extend p := by
      rw [hp]
      rfl
    cases hq : (p.prolongation h.last.operator : Except (Fault W) (Prolongation V _)) with
    | error fault =>
      -- without a prolongator nothing is noted
      rw [attempt_built_of_error (hextend ▸ Hierarchy.fails_extend hq session)]
      exact .failed ((bind_eq_of_eq_ok hp).trans (bind_eq_error hq))
    | ok q =>
      obtain ⟨⟨extended, h'⟩, hrun, hstep⟩ := Hierarchy.completes_extend hq session
      rw [attempt_built_of_ok (hextend ▸ hrun)]
      have hgroundwork : (built h : Trial S V).groundwork options = .ok () := by
        refine bind_eq_ok hp (bind_eq_ok hq rfl)
      cases hstep with
      | stays report _ _ => exact .stayed report hgroundwork rfl
      | grows report hq' hlt hnext =>
        exact .grown hgroundwork rfl (Hierarchy.growsTo_of_ofOperator hlt hnext report)

section Stored

variable {A : StoredMatrix S} {M : SparseMatrix S A.rowCount A.rowCount}
  {report : Option LevelReport} {session : Session Float}

/-- The part of an attempt on a stored matrix that may fail. -/
def storedGroundwork (A : StoredMatrix S) (options : Except (Fault W) (Options W)) :
    Setup Float (Fault W) (Parameters W × Prolongation V A.rowCount × LevelReport) := do
  let p ← Setup.ofResult (options >>= Options.resolve)
  return (p, ← A.prolongate p (.integer 0))

theorem attemptStored_of_error {fault : Fault W}
    (hrun : ((storedGroundwork (V := V) A options).run session).1 = .error fault) :
    (attemptStored (V := V) A report options session).1 = (.error fault, stored A report) :=
  fst_run_bind hrun _

theorem attemptStored_of_ok (hM : A.square = (.ok M : Except (Fault W) _)) {p : Parameters W}
    {q : Prolongation V A.rowCount} {found : LevelReport} (hfound : found.IsPrintable)
    (hrun : ((storedGroundwork A options).run session).1 = .ok (p, q, found))
    (report : Option LevelReport) : ∃ report' next, q.Settled (M.map Storage.value) W next ∧
      (attemptStored A report options session).1 = match next with
        | none => (.ok false, stored A (some report'))
        | some (coarsening, next) => (.ok true, built ⟨[{
            size := A.rowCount, operator := M.map Storage.value, density := A.density
            report := some report', coarsening := some coarsening }], next⟩) := by
  -- the prolongator is settled in the session that the groundwork leaves
  set session' := ((storedGroundwork (V := V) A options).run session).2 with hsession'
  obtain ⟨next, hnext, hsettled⟩ :=
    q.exists_settle_eq_ok (M.map Storage.value) p hfound session'
  obtain ⟨report', session'', hsettle⟩ : ∃ report' session'',
      q.settle (.ok (M.map Storage.value)) p found session' = ((report', .ok next), session'') :=
    ⟨_, _, Prod.ext (Prod.ext rfl hnext) rfl⟩
  refine ⟨report', next, hsettled, (fst_run_bind hrun _).trans ?_⟩
  simp only [hM, ← hsession']
  -- settling always ends with a report, and what follows depends on the next level alone
  change (StateT.bind (q.settle (.ok (M.map Storage.value)) p found) _ session').1 = _
  simp only [StateT.bind, hsettle]
  cases next with
  | none => rfl
  | some next => rfl

/-- A stored square matrix has a prolongator if its operator has one. -/
theorem gives_prolongate_stored (hM : A.square = (.ok M : Except (Fault W) _)) (p : Parameters W)
    (level : Datum) : (A.prolongate p level).Gives Prod.fst
      (A.operator >>= p.prolongation : Except (Fault W) (Prolongation V A.rowCount)) := by
  refine (Setup.gives_ofResult A.operator).bind fun operator => ?_
  rw [StoredMatrix.extent_eq hM]
  exact gives_prolongate p operator level

theorem outcome_attempt_stored (hM : A.square = (.ok M : Except (Fault W) _))
    (report : Option LevelReport) (options : Except (Fault W) (Options W))
    (session : Session Float) : (stored A report : Trial S V).Outcome
      ⟨[], { size := A.rowCount, operator := M.map Storage.value, density := A.density, report }⟩
      options ((stored A report : Trial S V).attempt options session).1.1
      ((stored A report : Trial S V).attempt options session).1.2 := by
  show Outcome _ _ _ (attemptStored A report options session).1.1
    (attemptStored A report options session).1.2
  cases hp : options >>= Options.resolve with
  | error fault =>
    have hrun : ((storedGroundwork (V := V) A options).run session).1 = .error fault := by
      rw [storedGroundwork, hp]
      rfl
    rw [attemptStored_of_error hrun]
    exact .failed (bind_eq_error hp)
  | ok p =>
    have hgroundwork : storedGroundwork (V := V) A options =
        A.prolongate p (.integer 0) >>= fun found => pure (p, found) := by
      rw [storedGroundwork, hp]
      rfl
    have hgives := gives_prolongate_stored (V := V) hM p (.integer 0)
    cases hq : (A.operator >>= p.prolongation : Except (Fault W) (Prolongation V A.rowCount)) with
    | error fault =>
      rw [hq] at hgives
      rw [attemptStored_of_error (hgroundwork ▸ hgives.fails.bind session)]
      exact .failed ((bind_eq_of_eq_ok hp).trans (bind_eq_error hq))
    | ok q =>
      rw [hq] at hgives
      -- the summary has to be printable, or else the attempt would fail after the report is noted
      have hprintable : (A.prolongate (V := V) p (.integer 0)).Ensures fun (_, report) =>
          report.IsPrintable :=
        .then fun operator => ensures_prolongateWithin_isPrintable operator A.extent p 0
      have hcompletes : (storedGroundwork (V := V) A options).Completes fun (_, q', found) =>
          q' = q ∧ found.IsPrintable := by
        rw [hgroundwork]
        exact (hgives.completes.and hprintable).bind fun _ hfound => .pure hfound
      obtain ⟨⟨p', _, found⟩, hrun, rfl, hfound⟩ := hcompletes session
      obtain ⟨report', next, hsettled, hattempt⟩ :=
        attemptStored_of_ok hM hfound hrun report
      have hready : (stored A report : Trial S V).groundwork options = .ok () :=
        bind_eq_ok hp (bind_eq_ok hq rfl)
      have hlevels (report : LevelReport) : (stored A (some report) : Trial S V).hierarchy? = some
          ⟨[], { size := A.rowCount, operator := M.map Storage.value, density := A.density
                 report := some report }⟩ := by
        simp only [hierarchy?, hM]
        rfl
      rw [hattempt]
      rcases hsettled with ⟨-, rfl⟩ | ⟨hlt, level, hlevel, rfl⟩
      · exact .stayed report' hready (hlevels report')
      · exact .grown hready rfl (Hierarchy.growsTo_of_ofOperator (q := _) hlt hlevel report')

end Stored

/-- Every attempt on a trial with levels has one of the outcomes. -/
theorem outcome_attempt (ht : t.hierarchy? = some h) (options : Except (Fault W) (Options W))
    (session : Session Float) :
    t.Outcome h options (t.attempt options session).1.1 (t.attempt options session).1.2 := by
  cases t with
  | table _ => cases ht
  | stored A report =>
    obtain ⟨M, hM, rfl⟩ := exists_square_of_hierarchy? ht
    exact outcome_attempt_stored hM report options session
  | built h' =>
    obtain rfl := Option.some.inj ht
    exact outcome_attempt_built h' options session

/-! ## Attempts that fail -/

theorem groundwork_built (h : Hierarchy V) (o : Options W) :
    (built h : Trial S V).groundwork (.ok o) =
      (o.resolve >>= fun p => p.prolongation h.last.operator :
        Except (Fault W) (Prolongation V h.last.size)) >>= fun _ => .ok () :=
  (bind_assoc _ _ _).symm

theorem groundwork_stored {A : StoredMatrix S} {B : SparseMatrix S A.rowCount A.rowCount}
    (hB : A.operator = (.ok B : Except (Fault W) _)) (report : Option LevelReport)
    (o : Options W) : (stored A report : Trial S V).groundwork (.ok o) =
      (o.resolve >>= fun p => p.prolongation B :
        Except (Fault W) (Prolongation V A.rowCount)) >>= fun _ => .ok () := by
  rw [bind_assoc]
  refine congrArg (o.resolve >>= ·) (funext fun p => ?_)
  show (A.operator >>= p.prolongation : Except (Fault W) (Prolongation V A.rowCount)) >>= _ = _
  rw [hB]
  rfl

/-- A computation whose result is not looked at fails as before. -/
theorem discard_cases {ε β : Type} {x : Except ε β} {cause : ε → Prop}
    (hx : (∃ b, x = .ok b) ∨ ∃ fault, x = .error fault ∧ cause fault) :
    (x >>= fun _ => .ok ()) = .ok () ∨
    ∃ fault, (x >>= fun _ => (.ok () : Except ε Unit)) = .error fault ∧ cause fault := by
  rcases hx with ⟨b, hb⟩ | ⟨fault, hfault, hcause⟩
  · exact .inl (bind_eq_ok hb rfl)
  · exact .inr ⟨fault, bind_eq_error hfault, hcause⟩

/-- With options that pass the checks nothing fails, unless there is something wrong with the seed
or with the capacity. -/
theorem groundwork_cases [ValueOrder V] (ht : t.hierarchy? = some h) {o : Options W}
    {scheme : Scheme} (hcheck : o.check = .ok scheme) (hn : h.last.size ≤ 0x8000000000000000) :
    t.groundwork (.ok o) = .ok () ∨
    ∃ fault, t.groundwork (.ok o) = .error fault ∧ o.LateFault h.last.size fault := by
  cases t with
  | table _ => cases ht
  | stored A report =>
    -- the operator has the stored lines as rows, also if they are columns of the matrix
    obtain ⟨M, hM, rfl⟩ := exists_square_of_hierarchy? ht
    obtain ⟨B, hB⟩ := StoredMatrix.exists_operator_eq_ok hM
    rw [groundwork_stored hB]
    exact discard_cases (Options.prolongation_cases hcheck hn B)
  | built h' =>
    obtain rfl := Option.some.inj ht
    rw [groundwork_built]
    exact discard_cases (Options.prolongation_cases hcheck hn h'.last.operator)

/-- Why an attempt with options that pass the checks fails. -/
theorem lateFault_of_attempt [ValueOrder V] (ht : t.hierarchy? = some h) {o : Options W}
    {scheme : Scheme} (hcheck : o.check = .ok scheme) (hn : h.last.size ≤ 0x8000000000000000)
    {session : Session Float} {fault : Fault W}
    (hattempt : (t.attempt (.ok o) session).1.1 = .error fault) :
    o.LateFault h.last.size fault := by
  have hgroundwork : t.groundwork (.ok o) = .error fault :=
    (hattempt ▸ outcome_attempt ht (.ok o) session).groundwork_eq_error
  rcases groundwork_cases ht hcheck hn with hok | ⟨fault', hfault, hlate⟩
  · cases hok.symm.trans hgroundwork
  · obtain rfl := Except.error.inj (hfault.symm.trans hgroundwork)
    exact hlate

/-! ## Any number of attempts -/

/-- Any number of attempts on a valid hierarchy leave a valid one, which keeps all levels but its
last one. -/
theorem exists_isValid_attemptAll (observe : Except (Fault W) Bool → Trial S V → String → α)
    (configs : List (Except (Fault W) (Options W))) (ht : t.hierarchy? = some h)
    (hvalid : h.IsValid) (session : Session Float) :
    ∃ h', (t.attemptAll observe configs session).1.2.hierarchy? = some h' ∧ h'.IsValid ∧
      h.upper <+: h'.upper := by
  induction configs generalizing t h session with
  | nil => exact ⟨h, ht, hvalid, List.prefix_rfl⟩
  | cons options rest ih =>
    -- one attempt, and the rest of them in the session that it leaves
    obtain ⟨h₁, ht₁, hvalid₁, hprefix₁⟩ :=
      (outcome_attempt ht options session).exists_isValid ht hvalid
    obtain ⟨h₂, ht₂, hvalid₂, hprefix₂⟩ := ih ht₁ hvalid₁ (t.attempt options session).2
    exact ⟨h₂, ht₂, hvalid₂, hprefix₁.trans hprefix₂⟩

/-- Every attempt on a trial with levels fails and changes nothing, leaves a report and changes
nothing else, or adds one level and changes nothing else but the level above it.  After any number
of attempts on a valid hierarchy there is a valid one, whichever of them have failed, and it still
has all levels but the last one.  With options that pass the checks, an attempt fails only because
of a seed or a capacity. -/
theorem attempts_all_or_nothing (ht : t.hierarchy? = some h) :
    (∀ (options : Except (Fault W) (Options W)) (session : Session Float),
      t.Outcome h options (t.attempt options session).1.1 (t.attempt options session).1.2) ∧
    (h.IsValid → ∀ (observe : Except (Fault W) Bool → Trial S V → String → α)
      (configs : List (Except (Fault W) (Options W))) (session : Session Float),
      ∃ h', (t.attemptAll observe configs session).1.2.hierarchy? = some h' ∧ h'.IsValid ∧
        h.upper <+: h'.upper) ∧
    ∀ [ValueOrder V] {o : Options W} {scheme : Scheme} {session : Session Float} {fault : Fault W},
      o.check = .ok scheme → h.last.size ≤ 0x8000000000000000 →
      (t.attempt (.ok o) session).1.1 = .error fault → o.LateFault h.last.size fault := by
  refine ⟨outcome_attempt ht, ?_, fun hcheck hn => lateFault_of_attempt ht hcheck hn⟩
  intro hvalid observe configs session
  exact exists_isValid_attemptAll observe configs ht hvalid session

end Trial

/-- Options for the path whose seed is negative. -/
def unseededOptions : Options Rat :=
  { pathOptions.toOptions with tieBreak := .flag true, seed := .integer (-1) }

/-- On the path, an attempt with a negative seed changes nothing, one with the options of the path
adds a level, and what both of them leave in turn is valid. -/
theorem attempts_path :
    (Trial.built pathStart : Trial Rat Rat).hierarchy? = some pathStart ∧ pathStart.IsValid ∧
    unseededOptions.check = .ok .direct ∧ ∀ session : Session Float,
      ((Trial.built pathStart : Trial Rat Rat).attempt (.ok unseededOptions) session).1 =
        (.error .negativeSeed, .built pathStart) ∧
      unseededOptions.LateFault 3 .negativeSeed ∧
      (∃ h', ((Trial.built pathStart : Trial Rat Rat).attempt (.ok pathOptions.toOptions)
          session).1 = (.ok true, .built h') ∧ pathStart.GrowsTo h' ∧ h'.last.size = 1) ∧
      ∃ h', ((Trial.built pathStart : Trial Rat Rat).attemptAll (fun result _ _ => result)
          [.ok unseededOptions, .ok pathOptions.toOptions, .ok unseededOptions,
            .ok pathOptions.toOptions] session).1.2.hierarchy? = some h' ∧ h'.IsValid := by
  have hvalid : pathStart.IsValid := by
    refine ⟨List.isChain_singleton _, rfl, fun l hl => ?_⟩
    rw [List.mem_singleton.mp hl]
    decide
  obtain ⟨hattempt, hattempts, hfails⟩ := Trial.attempts_all_or_nothing (S := Rat)
    (α := Except (Fault Rat) Bool) (t := .built pathStart) rfl
  have hcheck : unseededOptions.check = .ok .direct := by with_unfolding_all rfl
  have hfault : (Trial.built pathStart : Trial Rat Rat).groundwork (.ok unseededOptions) =
      .error .negativeSeed := by
    with_unfolding_all rfl
  refine ⟨rfl, hvalid, hcheck, fun session => ?_⟩
  obtain ⟨hresult, hleft⟩ := (hattempt (.ok unseededOptions) session).of_error hfault
  refine ⟨Prod.ext hresult hleft, hfails hcheck (by decide) hresult, ?_, ?_⟩
  · obtain ⟨q, hq, hcount⟩ := exists_prolongation_path
    have hresolve : (pathOptions.toOptions.resolve : Except (Fault Rat) (Parameters Rat)) =
        .ok pathParameters := by
      with_unfolding_all rfl
    obtain ⟨⟨extended, h'⟩, hrun, hstep⟩ :=
      Hierarchy.completes_extend (h := pathStart) hq session
    have hpos : 0 < q.splitting.coarseCount := by omega
    have hlt : q.splitting.coarseCount < 3 := by omega
    obtain ⟨rfl, -, hsize⟩ := hstep.sizes_eq hq hpos hlt
    have hresult : ((Trial.built pathStart : Trial Rat Rat).attempt (.ok pathOptions.toOptions)
        session).1 = (.ok true, .built h') := by
      apply Trial.attempt_built_of_ok
      show ((Setup.ofResult pathOptions.toOptions.resolve >>= pathStart.extend).run session).1 = _
      rw [hresolve]
      exact hrun
    have houtcome := hattempt (.ok pathOptions.toOptions) session
    rw [hresult] at houtcome
    refine ⟨h', hresult, ?_, hsize.trans hcount⟩
    cases houtcome with
    | grown _ hlevels hgrows =>
      obtain rfl := Option.some.inj hlevels
      exact hgrows
  · obtain ⟨h', hlevels, hvalid', -⟩ := hattempts hvalid (fun result _ _ => result)
      [.ok unseededOptions, .ok pathOptions.toOptions, .ok unseededOptions,
        .ok pathOptions.toOptions] session
    exact ⟨h', hlevels, hvalid'⟩

end Multigrid
