import Multigrid.Proofs.Hierarchy.Steps
import Multigrid.Proofs.Interpolation.Overflow

/-!
# The faults of checked options

Options that pass the checks may still be of no use.  The seed is not looked at before a random
order is asked for, and the capacity not before a table is made; it may be no number of slots, or
too few of them for some row.  These are the only reasons for an operator to have no prolongator.
In particular there is one if nothing is written for the capacity and no random order is asked for,
whatever the operator is.

## Main definitions

* `CapacityFault`: the faults that are due to a capacity
* `Options.LateFault`: the faults that the checks do not find

## Main results

* `Parameters.prolongation_cases`: the faults of valid parameters
* `Options.prolongation_cases`: the faults of checked options
-/

namespace Multigrid

variable {S V W : Type} {n : Nat} [Arith V] [Arith W]

/-- The faults that are due to a capacity: it is no number of slots, or there are too few of them
for a row. -/
inductive CapacityFault (capacity : Except (Fault W) (Option Int)) (n : Nat) : Fault W → Prop where
  /-- The capacity is no number of slots. -/
  | unusable {fault : Fault W} (unusable : capacity = .error fault) : CapacityFault capacity n fault
  /-- There are too few slots for row `i`. -/
  | tooSmall {slots : Int} {i : Fin n} (given : capacity = .ok (some slots)) :
      CapacityFault capacity n (.tableFull slots (some i))

/-- The faults that the checks of options do not find, for an operator with `n` points. -/
inductive Options.LateFault (o : Options W) (n : Nat) (fault : Fault W) : Prop where
  /-- A seed that is used is none. -/
  | seed (isUsed : o.tieBreak.isTruthy = true)
      (isNone : o.seed.toSeed (o.entropy 0) = (.error fault : Except (Fault W) (List UInt32)))
  /-- The tables of extended interpolation cannot have the capacity that is written. -/
  | capacity (scheme : o.check = .ok .extended)
      (capacity : CapacityFault o.capacity.toCapacity n fault)

section Steps

variable [Storage V V W] {G : StrengthGraph V n} {labels : Vector Label n} {diagonal : Vector W n}
  {p : Parameters W}

variable (G labels diagonal) in
/-- With a capacity that is given, there is a prolongator, or too few slots for a row. -/
theorem Extended.prolongator_cases (hn : n ≤ 0x8000000000000000) {capacity : Int}
    (hcapacity : 1 ≤ capacity) (firstOnly : Bool) :
    (∃ buffer, prolongator G labels diagonal firstOnly (some capacity) =
      (.ok buffer : Except (Fault W) (RowBuffer V n))) ∨
    ∃ i : Fin n, prolongator G labels diagonal firstOnly (some capacity) =
      (.error (.tableFull capacity (some i)) : Except (Fault W) (RowBuffer V n)) := by
  have hfails := rowSizes_failsAtFirstCrowded (R := W) hn hcapacity G labels firstOnly
  cases hsizes : (rowSizes G labels firstOnly (some capacity) .full :
      Except (Fault W) (List Nat)) with
  | error fault =>
    obtain ⟨i, -, rfl⟩ := (hfails.eq_error_iff fault).mp hsizes
    exact .inr ⟨i, bind_eq_error hsizes⟩
  | ok sizes => exact .inl (exists_prolongator_of_rowSizes_eq_ok diagonal hsizes)

variable (diagonal) in
theorem interpolated_cases (hcounts : Direct.CountsKept G labels) (hn : n ≤ 0x8000000000000000)
    (hcapacity : ∀ slots, p.capacity = .ok (some slots) → 1 ≤ slots) :
    (∃ buffer, interpolated G labels diagonal p = .ok buffer) ∨
    ∃ fault, interpolated G labels diagonal p = .error fault ∧ p.scheme = .extended ∧
      CapacityFault p.capacity n fault := by
  unfold interpolated
  cases p.scheme with
  | direct => exact .inl ⟨_, Direct.prolongator_eq_ok hcounts⟩
  | extended =>
    cases hgiven : p.capacity with
    | error fault => exact .inr ⟨fault, rfl, rfl, .unusable rfl⟩
    | ok given =>
      cases given with
      | none => exact .inl (Extended.exists_prolongator_eq_ok G labels diagonal p.firstOnly hn)
      | some slots =>
        rcases Extended.prolongator_cases G labels diagonal hn (hcapacity slots hgiven)
          p.firstOnly with hbuffer | ⟨i, hfault⟩
        · exact .inl hbuffer
        · exact .inr ⟨_, hfault, rfl, .tooSmall rfl⟩

variable [Storage S V W]

/-- With valid parameters there is a prolongator, unless there is something wrong with the
capacity. -/
theorem Parameters.prolongation_cases [ValueOrder V] (hp : p.IsValid)
    (hcapacity : ∀ slots, p.capacity = .ok (some slots) → 1 ≤ slots)
    (hn : n ≤ 0x8000000000000000) (A : SparseMatrix S n n) :
    (∃ q : Prolongation V n, p.prolongation A = .ok q) ∨
    ∃ fault, (p.prolongation A : Except (Fault W) (Prolongation V n)) = .error fault ∧
      p.scheme = .extended ∧ CapacityFault p.capacity n fault := by
  obtain ⟨weights, hmeasured⟩ := exists_measured_eq_ok hp (A.map Storage.value)
  set graph := StrengthGraph.ofMatrix (Storage.narrow p.tolerance) (A.map Storage.value)
  obtain ⟨splitting, hsplit⟩ : ∃ s, graph.split weights p.maxRounds =
      (.ok s : Except (Fault W) (Splitting n)) :=
    ⟨_, StrengthGraph.split_eq_ok p.maxRounds hp.maxRounds⟩
  have hcounts := countsKept_of_measured hmeasured splitting.labels
  rcases interpolated_cases (A.diagonal.map Storage.widen) hcounts hn hcapacity with
    ⟨buffer, hbuffer⟩ | ⟨fault, hfault, hcause⟩
  · exact .inl ⟨_, bind_eq_ok hmeasured (bind_eq_ok hsplit (bind_eq_ok hbuffer
      (bind_eq_ok (truncatedIfAsked_eq_ok _ hp.truncation) rfl)))⟩
  · -- the steps before interpolation go through, so its fault is that of the whole
    refine .inr ⟨fault, ?_, hcause⟩
    exact (bind_eq_of_eq_ok hmeasured).trans
      ((bind_eq_of_eq_ok hsplit).trans (bind_eq_error hfault))

/-- With options that pass the checks there is a prolongator, unless there is something wrong with
the seed or with the capacity. -/
theorem Options.prolongation_cases [ValueOrder V] {o : Options W} {scheme : Scheme}
    (hcheck : o.check = .ok scheme) (hn : n ≤ 0x8000000000000000) (A : SparseMatrix S n n) :
    (∃ q : Prolongation V n, (o.resolve >>= fun p => p.prolongation A) = .ok q) ∨
    ∃ fault, (o.resolve >>= fun p => p.prolongation A :
      Except (Fault W) (Prolongation V n)) = .error fault ∧ o.LateFault n fault := by
  obtain ⟨-, -, -, hcapacity⟩ := of_check_eq_ok hcheck
  -- the seed is needed for the parameters already, the capacity for the prolongator only
  rcases resolve_cases hcheck with
    ⟨p, hresolve, hp, hgiven, rfl, -⟩ | ⟨fault, hresolve, htie, hseed⟩
  · have hone : ∀ slots, p.capacity = .ok (some slots) → 1 ≤ slots := by
      intro slots hslots
      exact one_le_of_toCapacity hcapacity (hgiven.symm.trans hslots)
    rcases Parameters.prolongation_cases hp hone hn A with
      ⟨q, hq⟩ | ⟨fault, hfault, hscheme, hcause⟩
    · exact .inl ⟨q, bind_eq_ok hresolve hq⟩
    · rw [hscheme] at hcheck
      rw [hgiven] at hcause
      exact .inr ⟨fault, (bind_eq_of_eq_ok hresolve).trans hfault, .capacity hcheck hcause⟩
  · exact .inr ⟨fault, bind_eq_error hresolve, .seed htie hseed⟩

end Steps

end Multigrid
