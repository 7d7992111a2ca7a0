import Multigrid.Hierarchy.Solver
import Multigrid.Proofs.Hierarchy.Outcome
import Multigrid.Proofs.Sparse.RowBuffer

/-!
# Descending a hierarchy

The setup of a hierarchy reads a clock, remarks and prints, may fail at many places, and stops for
different reasons.  What it does to the levels is simple: the last level gets a report, or it gets a
report and a coarsening and is followed by a level whose operator is the Galerkin product.  A setup
that completes has taken a number of such steps from the hierarchy of a single level, each with
parameters of its own, so what holds of that hierarchy and is kept by a step holds at the end.

Every new level has fewer points than the one above it, and still some.  A limit on the number of
steps from the number of points on is therefore never reached: the loop ends by itself.

## Main definitions

* `Setup.Ensures`, `Setup.Completes`: what holds of the result of a computation if it completes, and
  computations that do
* `Hierarchy.Step`: one step
* `Hierarchy.Runs`: the loop, from any hierarchy to the one that it leaves
* `Hierarchy.Descends`: any number of steps

## Main results

* `Hierarchy.ensures_extend`: an extension is a step
* `Hierarchy.ensures_descend`, `ensures_setUp_runs`: a completed setup runs the loop to its end
* `Hierarchy.descend_eq_descend`: the limit does not matter
* `ensures_setUp`: a completed setup is a number of steps
-/

namespace Multigrid

namespace Setup

variable {T ε α β : Type}

/-- The result of a computation that completes satisfies `post`. -/
def Ensures (body : Setup T ε α) (post : α → Prop) : Prop :=
  ∀ session a, (body.run session).1 = .ok a → post a

variable {post : α → Prop} {post' : β → Prop}

theorem Ensures.pure {a : α} (h : post a) : (pure a : Setup T ε α).Ensures post := by
  intro session b hb
  cases hb
  exact h

theorem Ensures.ofResult {result : Except ε α} (h : ∀ a, result = .ok a → post a) :
    (ofResult result : Setup T ε α).Ensures post :=
  fun _ => h

/-- A step after another one may rely on what that one ensures. -/
theorem Ensures.bind {body : Setup T ε α} {next : α → Setup T ε β} (h : body.Ensures post)
    (hnext : ∀ a, post a → (next a).Ensures post') : (body >>= next).Ensures post' := by
  intro session b hb
  change ((ExceptT.bindCont next (body.run session).1).run (body.run session).2).1 = _ at hb
  cases hrun : (body.run session).1 with
  | error fault =>
    rw [hrun] at hb
    cases hb
  | ok a =>
    rw [hrun] at hb
    exact hnext a (h session a hrun) _ b hb

theorem Ensures.mono {post' : α → Prop} {body : Setup T ε α} (h : body.Ensures post)
    (himp : ∀ a, post a → post' a) : body.Ensures post' :=
  fun session a ha => himp a (h session a ha)

theorem ensures_true (body : Setup T ε α) : body.Ensures fun _ => True :=
  fun _ _ _ => trivial

/-- A step whose result does not matter. -/
theorem Ensures.then {body : Setup T ε α} {next : α → Setup T ε β}
    (hnext : ∀ a, (next a).Ensures post') : (body >>= next).Ensures post' :=
  (ensures_true body).bind fun a _ => hnext a

theorem Ensures.exists_of_map_run {body : Setup T ε α} (h : body.Ensures post) {f : α → β}
    {session : Session T} {b : β} (hrun : (body.run session).1.map f = .ok b) :
    ∃ a, post a ∧ b = f a := by
  cases hresult : (body.run session).1 with
  | error fault =>
    rw [hresult] at hrun
    cases hrun
  | ok a =>
    rw [hresult] at hrun
    cases hrun
    exact ⟨a, h session a hresult, rfl⟩

theorem Ensures.lift {m : StateM (Session T) α} (h : ∀ session, post (m session).1) :
    (liftM m : Setup T ε α).Ensures post := by
  intro session a ha
  cases ha
  exact h session

/-- The computation completes in every session, with a result that satisfies `post`. -/
def Completes (body : Setup T ε α) (post : α → Prop) : Prop :=
  ∀ session, ∃ a, (body.run session).1 = .ok a ∧ post a

theorem Completes.pure {a : α} (h : post a) : (pure a : Setup T ε α).Completes post :=
  fun _ => ⟨a, rfl, h⟩

theorem Completes.ofResult {result : Except ε α} {a : α} (hresult : result = .ok a) (h : post a) :
    (ofResult result : Setup T ε α).Completes post :=
  fun _ => ⟨a, hresult, h⟩

theorem Completes.bind {body : Setup T ε α} {next : α → Setup T ε β} (h : body.Completes post)
    (hnext : ∀ a, post a → (next a).Completes post') : (body >>= next).Completes post' := by
  intro session
  obtain ⟨a, hrun, ha⟩ := h session
  obtain ⟨b, hb, hpost⟩ := hnext a ha (body.run session).2
  refine ⟨b, ?_, hpost⟩
  change ((ExceptT.bindCont next (body.run session).1).run (body.run session).2).1 = _
  rw [hrun]
  exact hb

theorem Completes.lift {m : StateM (Session T) α} (h : ∀ session, post (m session).1) :
    (liftM m : Setup T ε α).Completes post :=
  fun session => ⟨(m session).1, rfl, h session⟩

theorem Gives.completes {body : Setup T ε α} {part : α → β} {b : β}
    (h : body.Gives part (.ok b)) : body.Completes fun a => part a = b :=
  h.exists_ok

theorem Gives.ensures {body : Setup T ε α} {part : α → β} {result : Except ε β}
    (h : body.Gives part result) : body.Ensures fun a => result = .ok (part a) :=
  fun _ _ => h.eq_ok

end Setup

section Steps

variable {V W : Type} [Arith V] [Arith W] [Storage V V W]

/-! ## One step -/

/-- What one attempt to coarsen the last level makes of a hierarchy, and whether it adds a level. -/
inductive Hierarchy.Step (p : Parameters W) (h : Hierarchy V) : Bool → Hierarchy V → Prop where
  /-- No point is coarse or all of them are, and the last level stays the last one. -/
  | stays {q : Prolongation V h.last.size} (report : LevelReport)
      (prolongation : p.prolongation h.last.operator = .ok q)
      (isStuck : q.splitting.coarseCount = 0 ∨ h.last.size ≤ q.splitting.coarseCount) :
      Step p h false (h.withReport report)
  /-- The last level is followed by a level with the coarse operator. -/
  | grows {q : Prolongation V h.last.size} {next : Level V} (report : LevelReport)
      (prolongation : p.prolongation h.last.operator = .ok q)
      (isCoarser : q.splitting.coarseCount < h.last.size)
      (coarse : Level.ofOperator (h.last.operator.galerkin q.matrix).2 =
        (.ok next : Except (Fault W) (Level V))) :
      Step p h true ⟨h.upper ++ [{ h.last with
        report := some report
        coarsening := some ⟨q.splitting.coarseCount, q.splitting.indicator, q.matrix,
          (h.last.operator.galerkin q.matrix).1⟩ }], next⟩

namespace Prolongation

variable {n : Nat} (q : Prolongation V n) (A : SparseMatrix V n n) (p : Parameters W)

/-- What a prolongator leads to: no next level, or the one of the coarse operator. -/
def Settled (W : Type) (next : Option (Coarsening V n × Level V)) : Prop :=
  (q.splitting.coarseCount = 0 ∨ n ≤ q.splitting.coarseCount) ∧ next = none ∨
  q.splitting.coarseCount < n ∧ ∃ level,
    Level.ofOperator (A.galerkin q.matrix).2 = (.ok level : Except (Fault W) (Level V)) ∧
    next = some (⟨q.splitting.coarseCount, q.splitting.indicator, q.matrix,
      (A.galerkin q.matrix).1⟩, level)

/-- The coarsening of a level and the next level. -/
def nextLevel (report : LevelReport) : Setup Float (Fault W) (Coarsening V n × Level V) := do
  printSummary p report
  return (⟨q.splitting.coarseCount, q.splitting.indicator, q.matrix, (A.galerkin q.matrix).1⟩,
    ← Setup.ofResult (Level.ofOperator (A.galerkin q.matrix).2))

variable {q} in
/-- The product does not fail, as the operator is there.  The report is completed by its time. -/
theorem exists_settle_eq (hsize : ¬ (q.splitting.coarseCount = 0 ∨ n ≤ q.splitting.coarseCount))
    (report : LevelReport) (session : Session Float) : ∃ timings session',
      (q.settle (.ok A) p report session).1.2 =
        ((q.nextLevel A p { report with timings }).run session').1.map some := by
  unfold settle
  dsimp only
  rw [if_neg hsize]
  exact ⟨_, _, rfl⟩

theorem ensures_nextLevel (hlt : q.splitting.coarseCount < n) (report : LevelReport) :
    (q.nextLevel A p report).Ensures fun next => q.Settled A W (some next) :=
  .then fun _ => .bind (.ofResult fun _ hlevel => hlevel) fun level hlevel =>
    .pure (.inr ⟨hlt, level, hlevel, rfl⟩)

theorem settled (report : LevelReport) (session : Session Float)
    {next : Option (Coarsening V n × Level V)}
    (h : (q.settle (.ok A) p report session).1.2 = .ok next) : q.Settled A W next := by
  by_cases hsize : q.splitting.coarseCount = 0 ∨ n ≤ q.splitting.coarseCount
  · -- a summary is all that is left to do
    unfold settle at h
    dsimp only at h
    rw [if_pos hsize] at h
    obtain ⟨_, -, rfl⟩ := (Setup.ensures_true (printSummary p report)).exists_of_map_run h
    exact .inl ⟨hsize, rfl⟩
  · obtain ⟨_, session', heq⟩ := exists_settle_eq A p hsize report session
    obtain ⟨next, hnext, rfl⟩ :=
      (q.ensures_nextLevel A p (by omega) _).exists_of_map_run (heq ▸ h)
    exact hnext

end Prolongation

omit [Arith V] [Arith W] [Storage V V W] in
theorem Level.of_ofOperator_eq_ok {n : Nat} {A : SparseMatrix V n n} {l : Level V}
    (h : Level.ofOperator A = (.ok l : Except (Fault W) (Level V))) :
    n ≠ 0 ∧ l = { size := n
                  operator := A
                  density := Float.ofNat A.entryCount / Float.ofNat (n * n) } := by
  unfold Level.ofOperator at h
  split_ifs at h with hn
  exact ⟨hn, (Except.ok.inj h).symm⟩

/-- One more level is asked for, of at most `count`, and these are its parameters. -/
def SolverOptions.AsksFor (o : SolverOptions W) (count : Int) (h : Hierarchy V)
    (p : Parameters W) : Prop :=
  o.asksForMore count h.count h.last.size = .ok true ∧ ∃ options,
    o.levelOptions count h.upper.length = .ok options ∧ options.resolve = .ok p

namespace Hierarchy

omit [Arith V] [Arith W] [Storage V V W] in
theorem exists_level_of_ofOperator_eq_ok {n : Nat} {A : SparseMatrix V n n} {h : Hierarchy V}
    (hstart : ofOperator A = (.ok h : Except (Fault W) (Hierarchy V))) :
    ∃ l, Level.ofOperator A = (.ok l : Except (Fault W) (Level V)) ∧ h = ⟨[], l⟩ := by
  obtain ⟨l, hl, hstart⟩ := exists_of_bind_eq_ok hstart
  exact ⟨l, hl, (Except.ok.inj hstart).symm⟩

/-- An extension that completes is a step. -/
theorem ensures_extend (h : Hierarchy V) (p : Parameters W) :
    (h.extend p).Ensures fun (extended, h') => Step p h extended h' := by
  refine Setup.Ensures.bind (gives_prolongate p h.last.operator _).ensures ?_
  rintro ⟨q, report⟩ hq
  have hsettle : (liftM (q.settle (.ok h.last.operator) p report) :
      Setup Float (Fault W) _).Ensures fun result => ∀ next, result.2 = .ok next →
        q.Settled h.last.operator W next :=
    .lift fun session next => q.settled h.last.operator p report session
  refine hsettle.bind ?_
  rintro ⟨report, outcome⟩ houtcome
  refine Setup.Ensures.bind (Setup.Ensures.ofResult fun next hnext => houtcome next hnext)
    fun next hnext => ?_
  rcases hnext with ⟨hstuck, rfl⟩ | ⟨hlt, level, hlevel, rfl⟩
  · exact Setup.Ensures.pure (.stays report hq hstuck)
  · exact Setup.Ensures.pure (.grows report hq hlt hlevel)

/-- A level that is added has fewer points than the one above it, and at least one. -/
theorem Step.size_lt {p : Parameters W} {h h' : Hierarchy V} (hstep : Step p h true h') :
    0 < h'.last.size ∧ h'.last.size < h.last.size := by
  cases hstep with
  | grows _ _ hlt hnext =>
    obtain ⟨hpos, rfl⟩ := Level.of_ofOperator_eq_ok hnext
    exact ⟨Nat.pos_of_ne_zero hpos, hlt⟩

/-! ## The loop -/

/-- The loop: a hierarchy is extended until no further level is asked for or none is added. -/
inductive Runs (o : SolverOptions W) (count : Int) : Hierarchy V → Hierarchy V → Prop where
  /-- No further level is asked for. -/
  | done {h : Hierarchy V} (enough : o.asksForMore count h.count h.last.size = .ok false) :
      Runs o count h h
  /-- No level is added. -/
  | stays {h h' : Hierarchy V} {p : Parameters W} (asks : o.AsksFor count h p)
      (step : Step p h false h') : Runs o count h h'
  /-- A level is added, and the loop goes on. -/
  | grows {h next h' : Hierarchy V} {p : Parameters W} (asks : o.AsksFor count h p)
      (step : Step p h true next) (rest : Runs o count next h') : Runs o count h h'

variable (o : SolverOptions W) (count : Int)

/-- A descent that completes runs the loop to its end. -/
theorem ensures_descend {limit : Nat} {h : Hierarchy V} (hpos : 0 < h.last.size)
    (hlimit : h.last.size ≤ limit) (smoothers : List SmootherPair) :
    (h.descend o count smoothers limit).Ensures fun (h', _) => h.Runs o count h' := by
  induction limit generalizing h smoothers with
  | zero => omega
  | succ limit ih =>
    rw [descend]
    refine (Setup.Ensures.ofResult fun more hmore => hmore).bind fun more hmore => ?_
    cases more with
    | false => exact .pure (.done hmore)
    | true =>
      refine (Setup.Ensures.ofResult fun options h => h).bind fun options hoptions => ?_
      refine (Setup.Ensures.ofResult fun p h => h).bind fun p hp => ?_
      have hasks : o.AsksFor count h p := ⟨hmore, options, hoptions, hp⟩
      refine (ensures_extend h p).bind fun (extended, next) hstep => ?_
      cases extended with
      | false => exact .pure (.stays hasks hstep)
      | true =>
        obtain ⟨hpos', hlt⟩ := hstep.size_lt
        exact .then fun pair => (ih hpos' (by omega) _).mono fun _ hrest => .grows hasks hstep hrest

/-- A hierarchy results from another one by steps, each with parameters of its own. -/
def Descends (W : Type) [Arith W] [Storage V V W] : Hierarchy V → Hierarchy V → Prop :=
  Relation.ReflTransGen fun h h' => ∃ (p : Parameters W) (extended : Bool), Step p h extended h'

/-- What a step keeps is kept by any number of steps. -/
theorem Descends.invariant {Inv : Hierarchy V → Prop}
    (hstep : ∀ {extended} (p : Parameters W) h h', Step p h extended h' → Inv h → Inv h')
    {h h' : Hierarchy V} (hdescends : h.Descends W h') (hinv : Inv h) : Inv h' := by
  induction hdescends with
  | refl => exact hinv
  | tail _ hlast ih =>
    obtain ⟨p, _, hlast⟩ := hlast
    exact hstep p _ _ hlast ih

variable {o count} in
/-- The loop takes a number of steps. -/
theorem Runs.descends {h h' : Hierarchy V} (hruns : h.Runs o count h') : h.Descends W h' := by
  induction hruns with
  | done _ => exact .refl
  | stays _ hstep => exact .single ⟨_, _, hstep⟩
  | grows _ hstep _ ih => exact .head ⟨_, _, hstep⟩ ih

end Hierarchy

end Steps

/-! ## The setup -/

section SetUp

variable {S X V W : Type} {n : Nat}

/-- A form that is accepted as a square matrix stands for one, whose rows are put in order. -/
theorem MatrixSource.ensures_acceptSquare {T R : Type} [Storage S X W] {source : MatrixSource S}
    {A : SparseMatrix S n n} (hsource : source.toMatrix? = some ⟨n, n, A⟩) (name : String) :
    (source.acceptSquare name : Setup T (Fault R) (SquareMatrix S)).Ensures
      (· = ⟨n, A.sorted⟩) := by
  have haccept : (source.accept name : Setup T (Fault R) (SizedMatrix S)).Ensures
      (· = ⟨n, n, A.sorted⟩) := by
    unfold accept
    rw [hsource]
    exact .then fun _ => .pure rfl
  have hsquare : (⟨n, n, A.sorted⟩ : SizedMatrix S).square? = some ⟨n, A.sorted⟩ := dif_pos rfl
  refine haccept.bind ?_
  rintro _ rfl
  simp only [hsquare]
  split_ifs
  · exact .then fun _ => .pure rfl
  · exact .pure rfl

variable [Arith V] [Arith W] [Storage V V W] [Storage S X W] [Floating S V]

/-- The operator of the finest level. -/
def SparseMatrix.finest (A : SparseMatrix S n n) : SparseMatrix V n n :=
  ((A.sorted.map Floating.toFloating).withoutZeros).sorted

/-- A setup that completes has run the loop from the hierarchy of a single level. -/
theorem ensures_setUp_runs {source : MatrixSource S} {A : SparseMatrix S n n}
    (hsource : source.toMatrix? = some ⟨n, n, A⟩) (o : SolverOptions W) :
    (setUp source o).Ensures fun (h, _) => ∃ (start : Hierarchy V) (count : Int),
      o.prepare n = .ok count ∧
      Hierarchy.ofOperator A.finest = (.ok start : Except (Fault W) (Hierarchy V)) ∧
      start.Runs o count h := by
  refine (MatrixSource.ensures_acceptSquare hsource "A").bind ?_
  rintro _ rfl
  refine (Setup.Ensures.ofResult fun count hcount => hcount).bind fun count hcount => ?_
  refine (Setup.Ensures.ofResult fun start hstart => hstart).bind fun start hstart => ?_
  obtain ⟨l, hl, rfl⟩ := Hierarchy.exists_level_of_ofOperator_eq_ok hstart
  obtain ⟨hn, rfl⟩ := Level.of_ofOperator_eq_ok hl
  refine (Hierarchy.ensures_descend o count (Nat.pos_of_ne_zero hn) le_rfl []).bind
    fun (h, smoothers) hruns => ?_
  exact .then fun _ => .pure ⟨_, count, hcount, hstart, hruns⟩

/-- A setup that completes has taken a number of steps from the hierarchy of a single level. -/
theorem ensures_setUp {source : MatrixSource S} {A : SparseMatrix S n n}
    (hsource : source.toMatrix? = some ⟨n, n, A⟩) (o : SolverOptions W) :
    (setUp source o).Ensures fun (h, _) => ∃ start : Hierarchy V,
      Hierarchy.ofOperator A.finest = (.ok start : Except (Fault W) (Hierarchy V)) ∧
      start.Descends W h :=
  (ensures_setUp_runs hsource o).mono fun _ ⟨start, _, _, hstart, hruns⟩ =>
    ⟨start, hstart, hruns.descends⟩

end SetUp

end Multigrid
