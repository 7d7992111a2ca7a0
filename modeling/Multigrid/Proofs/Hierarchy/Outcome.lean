import Multigrid.Hierarchy.Prolongator
import Mathlib

/-!
# The outcome of the setup

What a session records of the setup has no influence on the prolongator.  Neither the clock nor the
warnings of earlier steps are looked at, so a step gives the same result in every session, and the
steps can be taken without one.

## Main definitions

* `Setup.Gives`: the result of a computation in every session, as far as it is looked at
* `interpolated`, `Parameters.prolongation`: the steps to a prolongator without a session

## Main results

* `gives_interpolate`, `gives_prolongate`: interpolation and the prolongator
-/

namespace Multigrid

namespace Setup

variable {T ε α β γ δ : Type}

/-- In every session the part `part` of the result is `result`. -/
def Gives (body : Setup T ε α) (part : α → β) (result : Except ε β) : Prop :=
  ∀ session, (body.run session).1.map part = result

theorem Gives.eq_ok {body : Setup T ε α} {part : α → β} {result : Except ε β}
    (h : body.Gives part result) {session : Session T} {a : α}
    (hrun : (body.run session).1 = .ok a) : result = .ok (part a) := by
  rw [← h session, hrun]
  rfl

theorem Gives.exists_ok {body : Setup T ε α} {part : α → β} {b : β}
    (h : body.Gives part (.ok b)) (session : Session T) :
    ∃ a, (body.run session).1 = .ok a ∧ part a = b := by
  have hsession := h session
  cases hrun : (body.run session).1 with
  | error fault =>
    rw [hrun] at hsession
    cases hsession
  | ok a =>
    rw [hrun] at hsession
    exact ⟨a, rfl, Except.ok.inj hsession⟩

theorem map_id_eq (result : Except ε α) : result.map id = result := by
  cases result <;> rfl

theorem gives_pure (a : α) (part : α → β) : (pure a : Setup T ε α).Gives part (.ok (part a)) :=
  fun _ => rfl

theorem gives_ofResult (result : Except ε α) :
    (ofResult result : Setup T ε α).Gives id result :=
  fun _ => map_id_eq result

theorem gives_timed [Add T] [Sub T] [Zero T] {label : String} {body : Setup T ε α}
    {part : α → β} {result : Except ε β} (h : body.Gives part result) :
    (timed label body).Gives part result :=
  fun session => h { session with readings := session.readings + 1 }

/-- A step after another one, of whose result it looks at `part` only. -/
theorem Gives.bind {body : Setup T ε α} {part : α → β} {result : Except ε β}
    {next : α → Setup T ε γ} {part' : γ → δ} {rest : β → Except ε δ} (h : body.Gives part result)
    (hnext : ∀ a, (next a).Gives part' (rest (part a))) :
    (body >>= next).Gives part' (result >>= rest) := by
  intro session
  have hbody := h session
  show ((ExceptT.bindCont next (body.run session).1).run (body.run session).2).1.map part' = _
  cases hrun : (body.run session).1 with
  | error fault =>
    rw [hrun] at hbody
    subst hbody
    rfl
  | ok a =>
    rw [hrun] at hbody
    subst hbody
    exact hnext a (body.run session).2

/-- A result to which something is added that is not looked at. -/
theorem Gives.bind_pure {body : Setup T ε α} {result : Except ε α} {f : α → β} {part : β → α}
    (h : body.Gives id result) (hf : ∀ a, part (f a) = a) :
    (body >>= fun a => pure (f a)).Gives part result := by
  have hnext (a : α) : (pure (f a) : Setup T ε β).Gives part (.ok (id a)) :=
    congrArg Except.ok (hf a) ▸ gives_pure (f a) part
  have hresult : result >>= Except.ok = result := by cases result <;> rfl
  exact hresult ▸ h.bind hnext

theorem gives_restartTimings_bind {next : Unit → Setup T ε β} {part : β → γ}
    {result : Except ε γ} (hnext : (next ()).Gives part result) :
    (restartTimings >>= next).Gives part result :=
  fun session => hnext { session with timings := [] }

theorem gives_timings_bind {next : Labelled T → Setup T ε β} {part : β → γ} {result : Except ε γ}
    (hnext : ∀ timings, (next timings).Gives part result) :
    (timings >>= next).Gives part result :=
  fun session => hnext session.timings session

end Setup

section Steps

variable {S V W : Type} {n : Nat} [Arith V] [Arith W] [Storage V V W]

/-! ## Interpolation -/

/-- Interpolation by the chosen scheme. -/
def interpolated (graph : StrengthGraph V n) (labels : Vector Label n) (diagonal : Vector W n)
    (p : Parameters W) : Except (Fault W) (RowBuffer V n) :=
  match p.scheme with
  | .direct => Direct.prolongator graph labels n
  | .extended => p.capacity >>= Extended.prolongator graph labels diagonal p.firstOnly

/-- Nothing is missing for any row of an operator that is all there. -/
theorem Extended.plan_eq_full {α : Type} (graph : StrengthGraph α n) (labels : Vector Label n)
    {hasRow hasDiagonal : Fin n → Bool} (hrow : ∀ i, hasRow i = true)
    (hdiagonal : ∀ i, hasDiagonal i = true) :
    Extended.plan graph labels hasRow hasDiagonal n = .full := by
  have hall : ∀ i ∈ List.finRange n, isBuildable graph labels hasRow hasDiagonal i = true := by
    intro i _
    simp [isBuildable, hrow, hdiagonal]
  have htake : (List.finRange n).take n = List.finRange n := List.take_of_length_le (by simp)
  simp only [plan, htake, RowPlan.full]
  rw [List.takeWhile_eq_self_iff.mpr hall, List.all_eq_true.mpr hall]

theorem gives_interpolateDirectly (graph : StrengthGraph V n) (labels : Vector Label n) :
    (interpolateDirectly graph labels n).Gives id
      (Direct.prolongator graph labels n : Except (Fault W) (RowBuffer V n)) :=
  (Setup.gives_timed (Setup.gives_pure _ id)).bind fun _ =>
    Setup.gives_timed (Setup.gives_ofResult _)

theorem gives_interpolateExtended (graph : StrengthGraph V n) (labels : Vector Label n)
    (diagonal : Vector W n) (firstOnly : Bool) (given : Option Int) :
    (interpolateExtended graph labels diagonal (.full n) firstOnly
        (Extended.chosenCapacity graph labels firstOnly given)).Gives id
      (Extended.prolongator graph labels diagonal firstOnly given) := by
  have hplan (hasDiagonal : Fin n → Bool) (h : ∀ i, hasDiagonal i = true) :
      Extended.plan graph labels (fun i => decide (i.val < (Extent.full n).rows)) hasDiagonal n =
        .full :=
    Extended.plan_eq_full graph labels (fun i => decide_eq_true i.isLt) h
  unfold interpolateExtended
  dsimp only
  rw [hplan _ fun _ => rfl, hplan (fun i => decide (i.val < (Extent.full n).diagonal)) fun i =>
    decide_eq_true i.isLt]
  exact (Setup.gives_timed (Setup.gives_ofResult _)).bind fun _ =>
    Setup.gives_timed (Setup.gives_ofResult _)

/-- Interpolation gives the same buffer in every session. -/
theorem gives_interpolate (graph : StrengthGraph V n) (labels : Vector Label n)
    (diagonal : Vector W n) (p : Parameters W) :
    (interpolate graph labels diagonal (.full n) p).Gives Prod.fst
      (interpolated graph labels diagonal p) := by
  unfold interpolate interpolated
  cases p.scheme with
  | direct => exact (gives_interpolateDirectly graph labels).bind_pure fun _ => rfl
  | extended =>
    exact (Setup.gives_ofResult p.capacity).bind fun given =>
      (gives_interpolateExtended graph labels diagonal p.firstOnly given).bind_pure fun _ => rfl

/-! ## The prolongator -/

/-- Truncation, if the ratio is above zero. -/
def truncatedIfAsked {k : Nat} (P : SparseMatrix V n k) (ratio : W) :
    Except (Fault W) (SparseMatrix V n k) :=
  if 0 < ratio then Truncation.truncated P ratio n else .ok P

omit [Arith V] in
theorem gives_truncateIfAsked {k : Nat} (P : SparseMatrix V n k) (ratio : W) :
    (truncateIfAsked P ratio).Gives Prod.fst (truncatedIfAsked P ratio) := by
  unfold truncateIfAsked truncatedIfAsked
  split_ifs
  · exact (Setup.gives_timed (Setup.gives_ofResult _)).bind_pure fun _ => rfl
  · exact Setup.gives_pure _ _

variable [Storage S V W]

/-- The steps from an operator to its prolongator. -/
def Parameters.prolongation (p : Parameters W) (A : SparseMatrix S n n) :
    Except (Fault W) (Prolongation V n) := do
  let (graph, weights) ← (A.map Storage.value).measured p.tolerance p.influenceStart
  let splitting ← graph.split weights p.maxRounds
  let buffer ← interpolated graph splitting.labels (A.diagonal.map Storage.widen) p
  let full := Prolongation.ofBuffer splitting buffer
  return ⟨splitting, ← truncatedIfAsked full.matrix p.truncation⟩

theorem gives_warned {T ε : Type} (result : Except ε (Splitting n)) :
    (do
      let splitting ← Setup.ofResult result
      Setup.warn splitting.warning
      return splitting : Setup T ε (Splitting n)).Gives id result := by
  intro session
  cases result <;> rfl

/-- The prolongator of an operator is the same in every session. -/
theorem gives_prolongate (p : Parameters W) (A : SparseMatrix S n n) (level : Datum) :
    (prolongate A p level).Gives Prod.fst (p.prolongation A) := by
  refine Setup.gives_restartTimings_bind ?_
  refine (Setup.gives_timed (Setup.gives_ofResult _)).bind fun (graph, weights) => ?_
  refine (Setup.gives_timed (gives_warned _)).bind fun splitting => ?_
  refine (gives_interpolate graph splitting.labels _ p).bind fun (buffer, extra) => ?_
  refine (gives_truncateIfAsked _ p.truncation).bind fun (matrix, untruncated) => ?_
  exact Setup.gives_timings_bind fun timings => Setup.gives_pure _ _

end Steps

end Multigrid
