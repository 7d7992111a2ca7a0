import Multigrid.Proofs.Text.Labelled
import Multigrid.Session

/-!
# The account of timed blocks

A timed block takes a reading of the clock when it is entered and another one when it is left, by
its end or by a fault, and adds the difference to the time under its label.  Blocks may be nested,
and a block may have the label of one around it: the time that the outer block adds to is the one
at its own end, in which the inner block is accounted for already.  The readings of the inner
blocks lie between the two of the outer one.

What a run leaves behind is told by the blocks that it has entered and by nothing else.  Every
computation has an account of its blocks, and those of its parts are put together in their order,
whether they end or fail.  As sums do not depend on the order, it does not matter that an outer
block is entered before the blocks inside of it and accounted for after them.

## Main definitions

* `TimedBlock`, `timeAfter`: a block that was entered, and the time under a label after some blocks
* `Setup.Accounts`: a computation that enters some blocks and accounts for them
* `TimedProgram`: programs of nested blocks, with faults that are raised and handled at any depth
* `TimedProgram.run`, `TimedProgram.outcome`, `TimedProgram.blocks`: running a program, how it ends,
  and the blocks that it enters

## Main results

* `Setup.Accounts.timed`: one block
* `TimedProgram.accounts_run`: a program
* `TimedProgram.perm_ends`: every reading is taken at one end of one block
* `TimedProgram.blocks_accounted_once`: what a run leaves behind
-/

namespace Multigrid

variable {T ε α β : Type}

/-! ## Blocks -/

/-- A block that was entered, with the numbers of the readings at its two ends. -/
structure TimedBlock where
  /-- The label of the block. -/
  label : String
  /-- The number of the reading at which the block was entered. -/
  entry : Nat
  /-- The number of the reading at which the block was left. -/
  exit : Nat
  /-- A block is left after it was entered. -/
  entry_lt_exit : entry < exit

namespace TimedBlock

/-- The time between the two ends of a block. -/
def duration [Sub T] (clock : Nat → T) (b : TimedBlock) : T := clock b.exit - clock b.entry

/-- The block that is entered with reading number `first` and has the blocks `inner` inside. -/
def around (label : String) (first : Nat) (inner : List TimedBlock) : TimedBlock :=
  ⟨label, first, first + 1 + 2 * inner.length, by omega⟩

/-- The numbers of the readings at the two ends. -/
def ends (b : TimedBlock) : List Nat := [b.entry, b.exit]

end TimedBlock

section Account

variable [AddCommGroup T] (clock : Nat → T)

/-- The time under a label after some blocks, where `before` was there before: the durations of all
blocks with that label are added, and a label without any block is left alone. -/
def timeAfter (blocks : List TimedBlock) (label : String) (before : Option T) : Option T :=
  if ∃ b ∈ blocks, b.label = label then
    some (before.getD 0 +
      ((blocks.filter (·.label = label)).map (TimedBlock.duration clock)).sum)
  else before

variable {clock} {blocks blocks' : List TimedBlock} {label : String} {before : Option T}

@[simp] theorem timeAfter_nil : timeAfter clock [] label before = before := by
  simp [timeAfter]

theorem timeAfter_singleton (b : TimedBlock) : timeAfter clock [b] label before =
    if b.label = label then some (before.getD 0 + b.duration clock) else before := by
  by_cases h : b.label = label <;> simp [timeAfter, h]

theorem timeAfter_append : timeAfter clock (blocks ++ blocks') label before =
    timeAfter clock blocks' label (timeAfter clock blocks label before) := by
  have hnone {bs : List TimedBlock} (h : ¬ ∃ b ∈ bs, b.label = label) :
      bs.filter (·.label = label) = [] := by
    simpa [List.filter_eq_nil_iff] using h
  simp only [timeAfter, List.mem_append, or_and_right, exists_or, List.filter_append,
    List.map_append, List.sum_append]
  -- a part without a block of the label adds nothing to the sum
  by_cases h : ∃ b ∈ blocks, b.label = label <;> by_cases h' : ∃ b ∈ blocks', b.label = label
  · simp only [h, h', or_self, if_true, Option.getD_some, add_assoc]
  · simp only [h, h', or_false, if_true, if_false, hnone h', List.map_nil, List.sum_nil, add_zero]
  · simp only [h, h', or_true, if_true, if_false, hnone h, List.map_nil, List.sum_nil, zero_add]
  · simp only [h, h', or_self, if_false]

theorem timeAfter_perm (h : blocks.Perm blocks') :
    timeAfter clock blocks label before = timeAfter clock blocks' label before := by
  simp only [timeAfter, h.mem_iff]
  rw [((h.filter _).map _).sum_eq]

end Account

/-! ## Computations -/

namespace Setup

variable [AddCommGroup T] {body rest : Setup T ε α} {session : Session T} {result : Except ε α}
  {blocks blocks' : List TimedBlock}

/-- Run in `session`, the computation ends with `result` and has entered `blocks`.  For each of them
two readings were taken, and its duration is accounted for under its label. -/
structure Accounts (body : Setup T ε α) (session : Session T) (result : Except ε α)
    (blocks : List TimedBlock) : Prop where
  /-- The result, or the fault. -/
  result_eq : (body.run session).1 = result
  /-- The clock stays the same. -/
  clock_eq : (body.run session).2.clock = session.clock
  /-- The number of readings. -/
  readings_eq : (body.run session).2.readings = session.readings + 2 * blocks.length
  /-- The time under every label. -/
  find?_timings : ∀ label, (body.run session).2.timings.find? label =
    timeAfter session.clock blocks label (session.timings.find? label)

/-- What leaves the session as it is enters no block. -/
theorem accounts_of_run_eq (h : body.run session = (result, session)) :
    body.Accounts session result [] := by
  refine ⟨?_, ?_, ?_, fun label => ?_⟩ <;> rw [h]
  · rfl
  · exact timeAfter_nil.symm

theorem find?_addTime (timings : Labelled T) (l : String) (duration : T) (label : String) :
    (timings.addTime l duration).find? label =
      if label = l then some ((timings.find? label).getD 0 + duration)
      else timings.find? label := by
  rw [Labelled.addTime, Labelled.find?_insert]
  split_ifs with h
  · rw [h]
  · rfl

omit [AddCommGroup T] in
theorem run_tryCatch {handler : ε → Setup T ε α} : (tryCatch body handler).run session =
    match (body.run session).1 with
    | .ok a => (.ok a, (body.run session).2)
    | .error fault => (handler fault).run (body.run session).2 := by
  show (match (body.run session).1 with
    | .ok a => pure (.ok a)
    | .error fault => (handler fault).run : StateM (Session T) (Except ε α))
      (body.run session).2 = _
  cases (body.run session).1 <;> rfl

namespace Accounts

/-- A part that goes on where another one has ended. -/
theorem append {whole : Setup T ε β} {result' : Except ε β} {next : Setup T ε β}
    (h : body.Accounts session result blocks)
    (h' : next.Accounts (body.run session).2 result' blocks')
    (hrun : whole.run session = next.run (body.run session).2) :
    whole.Accounts session result' (blocks ++ blocks') where
  result_eq := by rw [hrun, h'.result_eq]
  clock_eq := by rw [hrun, h'.clock_eq, h.clock_eq]
  readings_eq := by
    rw [hrun, h'.readings_eq, h.readings_eq, List.length_append]
    omega
  find?_timings label := by
    rw [hrun, h'.find?_timings, h.find?_timings, h.clock_eq, timeAfter_append]

/-- A block with its body: the block is entered first, and accounted for last. -/
theorem timed {label : String}
    (h : body.Accounts { session with readings := session.readings + 1 } result blocks) :
    (Setup.timed label body).Accounts session result
      (.around label session.readings blocks :: blocks) where
  result_eq := h.result_eq
  clock_eq := h.clock_eq
  readings_eq := by
    show (body.run { session with readings := session.readings + 1 }).2.readings + 1 = _
    rw [h.readings_eq, List.length_cons]
    show session.readings + 1 + 2 * blocks.length + 1 = _
    omega
  find?_timings l := by
    let inside := (body.run { session with readings := session.readings + 1 }).2
    show (inside.timings.addTime label
      (inside.clock inside.readings - session.clock session.readings)).find? l = _
    rw [find?_addTime, h.find?_timings, h.clock_eq, h.readings_eq,
      timeAfter_perm (List.perm_append_singleton _ blocks).symm, timeAfter_append,
      timeAfter_singleton]
    simp only [eq_comm (a := l)]
    rfl

variable {next : α → Setup T ε β} {result' : Except ε β} {handler : ε → Setup T ε α}

/-- A computation after one that ends. -/
theorem bind {a : α} (h : body.Accounts session (.ok a) blocks)
    (h' : (next a).Accounts (body.run session).2 result' blocks') :
    (body >>= next).Accounts session result' (blocks ++ blocks') := by
  refine h.append h' ?_
  show ((ExceptT.bindCont next (body.run session).1).run (body.run session).2) = _
  rw [h.result_eq]
  rfl

/-- A computation after one that fails does not run. -/
theorem bind_error {fault : ε} (h : body.Accounts session (.error fault) blocks) :
    (body >>= next).Accounts session (.error fault) blocks := by
  have hthrow : (throw fault : Setup T ε β).Accounts (body.run session).2 (.error fault) [] :=
    accounts_of_run_eq rfl
  rw [← List.append_nil blocks]
  refine h.append hthrow ?_
  show ((ExceptT.bindCont next (body.run session).1).run (body.run session).2) = _
  rw [h.result_eq]
  rfl

/-- The handler of a computation that ends does not run. -/
theorem tryCatch {a : α} (h : body.Accounts session (.ok a) blocks) :
    (tryCatch body handler).Accounts session (.ok a) blocks := by
  have hpure : (pure a : Setup T ε α).Accounts (body.run session).2 (.ok a) [] :=
    accounts_of_run_eq rfl
  rw [← List.append_nil blocks]
  refine h.append hpure ?_
  rw [run_tryCatch, h.result_eq]
  rfl

/-- The handler of a computation that fails goes on where it has failed. -/
theorem tryCatch_error {fault : ε} (h : body.Accounts session (.error fault) blocks)
    (h' : (handler fault).Accounts (body.run session).2 result blocks') :
    (MonadExcept.tryCatch body handler).Accounts session result (blocks ++ blocks') := by
  refine h.append h' ?_
  rw [run_tryCatch, h.result_eq]

end Accounts

end Setup

/-! ## Programs -/

/-- A program of nested blocks. -/
inductive TimedProgram (ε : Type) where
  /-- There is nothing to be done. -/
  | done
  /-- A fault is raised. -/
  | raise (fault : ε)
  /-- A block with its body. -/
  | block (label : String) (body : TimedProgram ε)
  /-- A program after another one that ends. -/
  | seq (first second : TimedProgram ε)
  /-- A program, and what is done in its place from the point on where it fails. -/
  | handle (body : TimedProgram ε) (handler : ε → TimedProgram ε)

namespace TimedProgram

/-- Runs a program. -/
def run [Add T] [Sub T] [Zero T] : TimedProgram ε → Setup T ε Unit
  | done => pure ()
  | raise fault => throw fault
  | block label body => Setup.timed label body.run
  | seq first second => do
    first.run
    second.run
  | handle body handler => tryCatch body.run fun fault => (handler fault).run

/-- How a program ends, its blocks left aside. -/
def outcome : TimedProgram ε → Except ε Unit
  | done => .ok ()
  | raise fault => .error fault
  | block _ body => body.outcome
  | seq first second =>
    match first.outcome with
    | .ok _ => second.outcome
    | .error fault => .error fault
  | handle body handler =>
    match body.outcome with
    | .ok _ => .ok ()
    | .error fault => (handler fault).outcome

/-- The blocks that are entered in their order, when the next reading has number `next`.  What comes
after them goes on with the reading that follows theirs. -/
def blocks : TimedProgram ε → (next : Nat) → List TimedBlock
  | done, _ => []
  | raise _, _ => []
  | block label body, next =>
    let inner := body.blocks (next + 1)
    .around label next inner :: inner
  | seq first second, next =>
    let before := first.blocks next
    match first.outcome with
    | .ok _ => before ++ second.blocks (next + 2 * before.length)
    | .error _ => before
  | handle body handler, next =>
    let before := body.blocks next
    match body.outcome with
    | .ok _ => before
    | .error fault => before ++ (handler fault).blocks (next + 2 * before.length)

/-- A program ends as it does without its blocks, and accounts for all that it has entered. -/
theorem accounts_run [AddCommGroup T] (p : TimedProgram ε) (session : Session T) :
    p.run.Accounts session p.outcome (p.blocks session.readings) := by
  induction p generalizing session with
  | done => exact Setup.accounts_of_run_eq rfl
  | raise fault => exact Setup.accounts_of_run_eq rfl
  | block label body ih => exact (ih { session with readings := session.readings + 1 }).timed
  | seq first second ihFirst ihSecond =>
    have hfirst := ihFirst session
    rw [outcome, blocks, run]
    cases houtcome : first.outcome with
    | error fault => exact (houtcome ▸ hfirst).bind_error
    | ok _ =>
      -- the second part finds the number of readings that the first one has left
      have hsecond := ihSecond (first.run.run session).2
      rw [hfirst.readings_eq] at hsecond
      exact (houtcome ▸ hfirst).bind hsecond
  | handle body handler ihBody ihHandler =>
    have hbody := ihBody session
    rw [outcome, blocks, run]
    cases houtcome : body.outcome with
    | ok _ => exact (houtcome ▸ hbody).tryCatch
    | error fault =>
      have hhandler := ihHandler fault (body.run.run session).2
      rw [hbody.readings_eq] at hhandler
      exact (houtcome ▸ hbody).tryCatch_error hhandler

/-- The readings of one part follow those of another one. -/
theorem perm_ends_append {next : Nat} {bs bs' : List TimedBlock}
    (h : (bs.flatMap TimedBlock.ends).Perm (List.range' next (2 * bs.length)))
    (h' : (bs'.flatMap TimedBlock.ends).Perm
      (List.range' (next + 2 * bs.length) (2 * bs'.length))) :
    ((bs ++ bs').flatMap TimedBlock.ends).Perm (List.range' next (2 * (bs ++ bs').length)) := by
  rw [List.flatMap_append, List.length_append, Nat.mul_add, ← List.range'_append_1]
  exact h.append h'

/-- Every reading is taken at one end of one block. -/
theorem perm_ends (p : TimedProgram ε) (next : Nat) :
    ((p.blocks next).flatMap TimedBlock.ends).Perm
      (List.range' next (2 * (p.blocks next).length)) := by
  induction p generalizing next with
  | done => rfl
  | raise fault => rfl
  | block label body ih =>
    -- the readings of the body lie between the two of the block
    have hends : List.range' next (2 * ((body.blocks (next + 1)).length + 1)) =
        next :: (List.range' (next + 1) (2 * (body.blocks (next + 1)).length) ++
          [next + 1 + 2 * (body.blocks (next + 1)).length]) := by
      rw [Nat.mul_add, List.range'_succ, List.range'_concat, Nat.one_mul]
    rw [blocks, List.flatMap_cons, List.length_cons, hends]
    refine List.Perm.cons next ?_
    exact (List.perm_append_singleton _ _).symm.trans ((ih (next + 1)).append_right _)
  | seq first second ihFirst ihSecond =>
    rw [blocks]
    cases first.outcome with
    | ok _ => exact perm_ends_append (ihFirst next) (ihSecond _)
    | error fault => exact ihFirst next
  | handle body handler ihBody ihHandler =>
    rw [blocks]
    cases body.outcome with
    | ok _ => exact ihBody next
    | error fault => exact perm_ends_append (ihBody next) (ihHandler fault _)

/-- A program ends as it does without its blocks: with its own result, or with a fault that nothing
in it has handled.  The clock is read twice for every block that was entered, once at either end.
The durations of all blocks with one label are added to the time that was under the label before,
and labels without any block keep their time, or stay without one. -/
theorem blocks_accounted_once [AddCommGroup T] (p : TimedProgram ε) (session : Session T) :
    let entered := p.blocks session.readings
    let after := (p.run.run session).2
    (p.run.run session).1 = p.outcome ∧
      after.readings = session.readings + 2 * entered.length ∧
      (entered.flatMap TimedBlock.ends).Perm
        (List.range' session.readings (2 * entered.length)) ∧
      (∀ label, (∃ b ∈ entered, b.label = label) → after.timings.find? label =
        some ((session.timings.find? label).getD 0 +
          ((entered.filter (·.label = label)).map fun b =>
            session.clock b.exit - session.clock b.entry).sum)) ∧
      ∀ label, (∀ b ∈ entered, b.label ≠ label) →
        after.timings.find? label = session.timings.find? label := by
  intro entered after
  have h := p.accounts_run session
  refine ⟨h.result_eq, h.readings_eq, p.perm_ends session.readings, fun label hlabel => ?_,
    fun label hlabel => ?_⟩
  · rw [h.find?_timings, timeAfter, if_pos hlabel]
    rfl
  · rw [h.find?_timings, timeAfter, if_neg]
    rintro ⟨b, hb, rfl⟩
    exact hlabel b hb rfl

/-- A fault inside of two blocks with one label, where the readings are 0, 1, 4 and 9. -/
example : ((block "fill" (block "fill" (raise "full"))).run.run
    { clock := fun k => (k * k : Int) }).2.timings = [("fill", (4 - 1) + (9 - 0))] := by
  decide

end TimedProgram

end Multigrid
