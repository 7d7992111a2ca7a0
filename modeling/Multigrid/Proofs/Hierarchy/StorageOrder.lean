import Multigrid.Proofs.Hierarchy.MaximumPrinciple
import Multigrid.Proofs.Interpolation.Reordering

/-!
# The order in which rows are stored

An operator may be stored with the entries of a row in any order.  As long as no column is stored
twice, and a fine neighbour hands on all of its coarse points and not just the one that is stored
first, the setup does not notice: it finds the same splitting, whatever the values are.

The weights are sums, so they are the same in exact arithmetic only.  Direct interpolation stores
them in the order of the entries of the operator, extended interpolation in the order of the points.

A random order has to come from a seed that is written.  Without one every setup would draw its own,
and would find the same splitting by chance only.

## Main definitions

* `Options.IgnoresOrder`: options that do not ask which entry is stored first
* `Parameters.Gives`: the prolongator of an operator in all sessions

## Main results

* `exists_prolongation_reordered`: the splitting, in any arithmetic
* `isReordered_prolongation`: the prolongator, in exact arithmetic
* `prolongate_reordered`: the setup of a reordered operator
-/

namespace Multigrid

/-- Options that pass the checks with a scheme, and under which all coarse points of a fine
neighbour are handed on.  No capacity is given, and a seed that is used is an integer from zero
on. -/
structure Options.IgnoresOrder {W : Type} [Arith W] (o : Options W) (scheme : Scheme) : Prop where
  /-- The checks. -/
  check : o.check = .ok scheme
  /-- The coarse points of a fine neighbour. -/
  firstOnly : o.firstOnly.isTruthy = false
  /-- The capacity. -/
  capacity : o.capacity = .nothing
  /-- The seed. -/
  seed : o.tieBreak.isTruthy = true → ∃ k, o.seed.toInteger? = some k ∧ 0 ≤ k

/-- A reordered operator has a prolongator, and the splitting of the operator. -/
theorem exists_prolongation_reordered {S V W : Type} {n : Nat} [Arith V] [Arith W] [Storage S V W]
    [Storage V V W] [ValueOrder V] {A B : SparseMatrix S n n} (hA : A.HasDistinctColumns)
    (h : A.IsReordered B) {p : Parameters W} (hp : p.IsValid) (hcapacity : p.capacity = .ok none)
    (hn : n ≤ 0x8000000000000000) :
    ∃ (s : Splitting n) (P P' : SparseMatrix V n s.coarseCount),
      p.prolongation A = .ok ⟨s, P⟩ ∧ p.prolongation B = .ok ⟨s, P'⟩ := by
  obtain ⟨⟨s, P⟩, hq⟩ := Parameters.exists_prolongation_eq_ok (V := V) hp hcapacity hn A
  obtain ⟨⟨s', P'⟩, hq'⟩ := Parameters.exists_prolongation_eq_ok (V := V) hp hcapacity hn B
  obtain ⟨G, weights, -, hmeasured, hsplit, -, -⟩ := Parameters.exists_of_prolongation_eq_ok hq
  obtain ⟨H', weights', -, hmeasured', hsplit', -, -⟩ := Parameters.exists_of_prolongation_eq_ok hq'
  obtain ⟨H, hH, hgraph⟩ := (h.map Storage.value).exists_measured_eq_ok (hA.map _) hmeasured
  obtain ⟨rfl, rfl⟩ := Prod.mk.inj (Except.ok.inj (hH.symm.trans hmeasured'))
  rw [hgraph.split_eq] at hsplit'
  obtain rfl : s = s' := Except.ok.inj (hsplit.symm.trans hsplit')
  exact ⟨s, P, P', hq, hq'⟩

section Exact

variable {n : Nat} {A B : SparseMatrix Rat n n} {p : Parameters Rat} {s : Splitting n}
  {P P' : SparseMatrix Rat n s.coarseCount}

/-- In exact arithmetic the prolongators have the same entries.  Under the extended scheme they are
equal. -/
theorem isReordered_prolongation (hA : A.HasDistinctColumns) (h : A.IsReordered B) (hp : p.IsValid)
    (hfirst : p.firstOnly = false) (hP : p.prolongation A = .ok ⟨s, P⟩)
    (hP' : p.prolongation B = .ok ⟨s, P'⟩) :
    P.IsReordered P' ∧ (p.scheme = .extended → P' = P) := by
  obtain ⟨-, buffer, -, -, hbuffer, hmatrix⟩ := exists_of_prolongation_eq_ok hp hP
  obtain ⟨-, buffer', -, -, hbuffer', hmatrix'⟩ := exists_of_prolongation_eq_ok hp hP'
  dsimp only at hbuffer hbuffer' hmatrix hmatrix'
  have hgraph : (p.graph A).IsReordered (p.graph B) :=
    StrengthGraph.isReordered_ofMatrix h hA p.tolerance
  obtain ⟨hfull, hsame⟩ :=
    isReordered_interpolated hgraph (operator_graph ▸ hA) hfirst hbuffer hbuffer'
  rw [hmatrix, hmatrix']
  refine ⟨?_, fun hscheme => by rw [hsame hscheme]⟩
  split_ifs
  · exact Truncation.isReordered_rows hfull
  · exact hfull

end Exact

/-- In every session, and as a level of any number, an operator has this prolongator. -/
def Parameters.Gives {S V W : Type} {n : Nat} [Arith V] [Arith W] [Storage S V W] [Storage V V W]
    (p : Parameters W) (A : SparseMatrix S n n) (q : Prolongation V n) : Prop :=
  ∀ (level : Datum) (session : Session Float), ∃ report,
    ((prolongate A p level).run session).1 = .ok (q, report)

theorem Parameters.gives_of_prolongation_eq_ok {S V W : Type} {n : Nat} [Arith V] [Arith W]
    [Storage S V W] [Storage V V W] {p : Parameters W} {A : SparseMatrix S n n}
    {q : Prolongation V n} (h : p.prolongation A = .ok q) : p.Gives A q := by
  intro level session
  have hgives := gives_prolongate p A level
  rw [h] at hgives
  obtain ⟨⟨_, report⟩, hrun, rfl⟩ := hgives.exists_ok session
  exact ⟨report, hrun⟩

/-- Two operators whose rows have the same entries, stored in any order and no column twice, have
prolongators with the same splitting, whatever the system would draw in their setups.  In exact
arithmetic the prolongators are the same matrix, and under the extended scheme they are stored
alike.  Rows are numbered by words of 64 bits. -/
theorem prolongate_reordered :
    (∀ {S V W : Type} {n : Nat} [Arith V] [Arith W] [Storage S V W] [Storage V V W] [ValueOrder V]
      {A B : SparseMatrix S n n} {o : Options W} {scheme : Scheme}, n ≤ 0x8000000000000000 →
      A.HasDistinctColumns → A.IsReordered B → o.IgnoresOrder scheme →
      ∃ (p : Parameters W) (s : Splitting n) (P P' : SparseMatrix V n s.coarseCount),
        (∀ entropy, ({ o with entropy } : Options W).resolve = .ok p) ∧ p.Gives A ⟨s, P⟩ ∧
        p.Gives B ⟨s, P'⟩) ∧
    ∀ {n : Nat} {A B : SparseMatrix Rat n n} {o : Options Rat} {scheme : Scheme},
      n ≤ 0x8000000000000000 → A.HasDistinctColumns → A.IsReordered B → o.IgnoresOrder scheme →
      ∃ (p : Parameters Rat) (s : Splitting n) (P P' : SparseMatrix Rat n s.coarseCount),
        (∀ entropy, ({ o with entropy } : Options Rat).resolve = .ok p) ∧ p.Gives A ⟨s, P⟩ ∧
        p.Gives B ⟨s, P'⟩ ∧ P'.coefficients = P.coefficients ∧
        (scheme = .extended → P' = P) := by
  constructor
  · intro S V W n _ _ _ _ _ A B o scheme hn hA h ho
    obtain ⟨p, hresolve, hp, hcapacity, -, -⟩ :=
      Options.exists_resolve_eq_ok ho.check ho.capacity ho.seed
    obtain ⟨s, P, P', hP, hP'⟩ := exists_prolongation_reordered hA h hp hcapacity hn
    exact ⟨p, s, P, P', fun entropy => (o.resolve_withEntropy ho.seed entropy).trans hresolve,
      p.gives_of_prolongation_eq_ok hP, p.gives_of_prolongation_eq_ok hP'⟩
  · intro n A B o scheme hn hA h ho
    obtain ⟨p, hresolve, hp, hcapacity, rfl, hfirst⟩ :=
      Options.exists_resolve_eq_ok ho.check ho.capacity ho.seed
    obtain ⟨s, P, P', hP, hP'⟩ := exists_prolongation_reordered hA h hp hcapacity hn
    obtain ⟨hreordered, hsame⟩ :=
      isReordered_prolongation hA h hp (hfirst.trans ho.firstOnly) hP hP'
    exact ⟨p, s, P, P', fun entropy => (o.resolve_withEntropy ho.seed entropy).trans hresolve,
      p.gives_of_prolongation_eq_ok hP, p.gives_of_prolongation_eq_ok hP',
      hreordered.coefficients_eq, hsame⟩

/-- The entries of every row, stored from the last to the first. -/
def SparseMatrix.reversed {α : Type} {m n : Nat} (A : SparseMatrix α m n) : SparseMatrix α m n :=
  .ofRows fun i => (A.row i).reverse

theorem SparseMatrix.isReordered_reversed {α : Type} {m n : Nat} (A : SparseMatrix α m n) :
    A.IsReordered A.reversed := by
  intro i
  rw [reversed, row_ofRows]
  exact (List.reverse_perm _).symm

/-- Three points in a circle, with values that are not numbers and infinities. -/
def unsettled : SparseMatrix Float 3 3 :=
  .ofRows fun i => [⟨finRotate 3 i, 0 / 0⟩, ⟨i, 1⟩, ⟨(finRotate 3).symm i, -1 / 0⟩]

/-- The unsettled operator and its reversal have the same splitting, and the detour and its reversal
have the same prolongator. -/
theorem prolongate_reversed :
    (unsettled.HasDistinctColumns ∧ ({} : Options Float).IgnoresOrder .extended ∧
      ∃ (p : Parameters Float) (s : Splitting 3) (P P' : SparseMatrix Float 3 s.coarseCount),
        (∀ entropy, ({ ({} : Options Float) with entropy } : Options Float).resolve = .ok p) ∧
        p.Gives unsettled ⟨s, P⟩ ∧ p.Gives unsettled.reversed ⟨s, P'⟩) ∧
    detour.HasDistinctColumns ∧ detourOptions.IgnoresOrder .extended ∧
      ∃ (s : Splitting 5) (P : SparseMatrix Rat 5 s.coarseCount),
        detourParameters.Gives detour ⟨s, P⟩ ∧ detourParameters.Gives detour.reversed ⟨s, P⟩ := by
  have hunsettled : unsettled.HasDistinctColumns := by decide
  have hdefault : ({} : Options Float).IgnoresOrder .extended :=
    { check := by with_unfolding_all rfl, firstOnly := rfl, capacity := rfl
      seed := fun _ => ⟨0, rfl, le_refl 0⟩ }
  have hdetour : detour.HasDistinctColumns := isDominant_detour.hasDistinctColumns
  have hoptions : detourOptions.IgnoresOrder .extended :=
    { check := by with_unfolding_all rfl, firstOnly := rfl, capacity := rfl, seed := nofun }
  refine ⟨⟨hunsettled, hdefault, prolongate_reordered.1 (by decide) hunsettled
    unsettled.isReordered_reversed hdefault⟩, hdetour, hoptions, ?_⟩
  obtain ⟨p, s, P, P', hresolve, hP, hP', -, hsame⟩ :=
    prolongate_reordered.2 (by decide) hdetour detour.isReordered_reversed hoptions
  have hp : detourOptions.resolve = .ok detourParameters := by with_unfolding_all rfl
  obtain rfl := Except.ok.inj (hp.symm.trans (hresolve detourOptions.entropy))
  obtain rfl := hsame rfl
  exact ⟨s, P', hP, hP'⟩

end Multigrid
