import Multigrid.Proofs.Hierarchy.Steps
import Multigrid.Proofs.Interpolation.UnitRows
import Multigrid.Proofs.Sparse.WellFormed

/-!
# Well-formed prolongators

Options that pass the checks give a prolongator for every operator.  The stored values do not
matter: there may be values that are not numbers, infinities and zeros, the rows may be unsorted and
may store a column twice, and the splitting may leave points undecided.  The entries that a builder
counts are the ones that it writes, so no slot is left open and none is missing, and the row of a
coarse point has the entry one in the column of the point, and no other.

A table is as large as the graph asks for if no capacity is given, and a seed that is used has to be
an integer from zero on.  Nothing else can go wrong.

## Main definitions

* `Parameters.FillsSlots`: the buffers behind a prolongator

## Main results

* `prolongate_isWellFormed`: the prolongators of all operators
-/

namespace Multigrid

variable {S V W : Type} {n : Nat} [Arith V] [Arith W] [Storage S V W] [Storage V V W]

/-- The slots that are reserved for a prolongator are the ones that are written.  Interpolation
writes the matrix with the columns numbered like the rows, and truncation reads that matrix and
writes another one. -/
def Parameters.FillsSlots (p : Parameters W) (A : SparseMatrix S n n) (q : Prolongation V n) :
    Prop :=
  ∃ graph weights buffer,
    (A.map Storage.value).measured p.tolerance p.influenceStart = .ok (graph, weights) ∧
    graph.split weights p.maxRounds = (.ok q.splitting : Except (Fault W) (Splitting n)) ∧
    interpolated graph q.splitting.labels (A.diagonal.map Storage.widen) p = .ok buffer ∧
    buffer.Holds (coarseNumbers q.splitting.labels).get (coarseColumns q.splitting.labels buffer) ∧
    if 0 < p.truncation then
      ∃ sizes truncated,
        Truncation.rowSizes (coarseColumns q.splitting.labels buffer) p.truncation = .ok sizes ∧
        Truncation.fill (coarseColumns q.splitting.labels buffer) p.truncation n
          (runningTotals (sizes.map Int.ofNat)) = .ok truncated ∧
        truncated.Holds Fin.val q.matrix
    else q.matrix = coarseColumns q.splitting.labels buffer

/-- The builders of a prolongator fill their slots. -/
theorem Parameters.fillsSlots [ValueOrder V] {p : Parameters W} (hp : p.IsValid)
    {A : SparseMatrix S n n} {q : Prolongation V n} (h : p.prolongation A = .ok q) :
    p.FillsSlots A q := by
  obtain ⟨graph, weights, buffer, hmeasured, hsplit, hbuffer, hmatrix⟩ :=
    exists_of_prolongation_eq_ok h
  have hcounts := countsKept_of_measured hmeasured q.splitting.labels
  obtain ⟨rows, hrows, hfull⟩ := exists_rows_of_interpolated_eq_ok hcounts hbuffer
  refine ⟨graph, weights, buffer, hmeasured, hsplit, hbuffer, ?_, ?_⟩
  · rw [hrows] at hfull ⊢
    exact RowBuffer.holds_ofRows hfull
  · rw [truncatedIfAsked_eq_ok _ hp.truncation] at hmatrix
    have hq := (Except.ok.inj hmatrix).symm
    split_ifs at hq ⊢ with hpos
    · refine ⟨_, _, Truncation.rowSizes_eq_ok _ hp.truncation,
        Truncation.fill_eq_ok _ hp.truncation, ?_⟩
      rw [hq]
      exact RowBuffer.holds_ofRows_self _
    · exact hq

/-- Every operator has a prolongator under options that pass the checks, if no capacity is given and
a seed that is used is an integer from zero on.  It is well formed, coarse points have unit rows,
and no slot is left open.  The numbers of the points have to fit into the slots of a table. -/
theorem prolongate_isWellFormed [ValueOrder V] [UnitLaws V W] (hn : n ≤ 0x8000000000000000)
    (A : SparseMatrix S n n) {o : Options W} {scheme : Scheme} (hcheck : o.check = .ok scheme)
    (hcapacity : o.capacity = .nothing)
    (hseed : o.tieBreak.isTruthy = true → ∃ k, o.seed.toInteger? = some k ∧ 0 ≤ k) (level : Datum)
    (session : Session Float) :
    ∃ (p : Parameters W) (q : Prolongation V n) (report : LevelReport), o.resolve = .ok p ∧
      ((prolongate A p level).run session).1 = .ok (q, report) ∧
      q.matrix.compressed.IsWellFormed n q.splitting.coarseCount ∧
      HasUnitRows q.splitting.labels q.matrix ∧ p.FillsSlots A q := by
  obtain ⟨p, hresolve, hp, hgiven, -, -⟩ := Options.exists_resolve_eq_ok hcheck hcapacity hseed
  obtain ⟨q, hq⟩ := p.exists_prolongation_eq_ok hp hgiven hn A
  have hgives := gives_prolongate p A level
  rw [hq] at hgives
  obtain ⟨⟨_, report⟩, hrun, rfl⟩ := hgives.exists_ok session
  exact ⟨p, _, report, hresolve, hrun, SparseMatrix.isWellFormed_compressed _,
    Parameters.hasUnitRows_prolongation hq, Parameters.fillsSlots hp hq⟩

/-- Three points in a circle.  Every row is unsorted, stores two columns twice, and has a value that
is not a number, an infinity and a zero. -/
def spoiled : SparseMatrix Float 3 3 :=
  .ofRows fun i => [⟨finRotate 3 i, -1⟩, ⟨i, 0 / 0⟩, ⟨finRotate 3 i, -2⟩,
    ⟨(finRotate 3).symm i, -1 / 0⟩, ⟨i, 0⟩]

/-- Options under which there is one round and weights below half of the largest one are dropped. -/
def spoiledOptions : Options Float :=
  { interpolation := .text "direct", truncation := 0.5, maxRounds := .real 1 }

/-- The spoiled operator has a well-formed prolongator. -/
theorem spoiled_isWellFormed :
    3 ≤ 0x8000000000000000 ∧ spoiledOptions.check = .ok .direct ∧
    spoiledOptions.capacity = .nothing ∧
    (∃ k, spoiledOptions.seed.toInteger? = some k ∧ 0 ≤ k) ∧
    ∀ session : Session Float, ∃ (p : Parameters Float) (q : Prolongation Float 3)
      (report : LevelReport), spoiledOptions.resolve = .ok p ∧
      ((prolongate spoiled p .nothing).run session).1 = .ok (q, report) ∧
      q.matrix.compressed.IsWellFormed 3 q.splitting.coarseCount ∧
      HasUnitRows q.splitting.labels q.matrix ∧ p.FillsSlots spoiled q := by
  have hcheck : spoiledOptions.check = .ok .direct := by with_unfolding_all rfl
  have hseed : ∃ k, spoiledOptions.seed.toInteger? = some k ∧ 0 ≤ k := ⟨0, rfl, le_refl 0⟩
  exact ⟨by decide, hcheck, rfl, hseed, fun session =>
    prolongate_isWellFormed (by decide) spoiled hcheck rfl (fun _ => hseed) .nothing session⟩

end Multigrid
