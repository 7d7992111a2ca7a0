import Multigrid.Proofs.Hierarchy.Descent
import Multigrid.Proofs.Hierarchy.Parameters
import Multigrid.Proofs.Interpolation.CompactedRows
import Multigrid.Proofs.Scalar.Quotient
import Multigrid.Proofs.Sparse.WellFormed
import Multigrid.Proofs.Text.Labelled

/-!
# Summaries of finished prolongators

A summary is written from loosely typed values and fails on values of the wrong kind: sizes have to
be integers, and the number of entries that truncation has kept is divided by the number that there
were.  A report that belongs to a prolongator has integers in these places, and truncation adds no
entries, so the quotient is at most one.  Once there is a prolongator, its summary can be written.

## Main definitions

* `LevelReport.IsPrintable`: reports with values of the right kinds

## Main results

* `LevelReport.IsPrintable.exists_summary_eq_ok`: their summaries can be written
* `ensures_prolongateWithin_isPrintable`: the reports of prolongators are of that kind
-/

namespace Multigrid

/-! ## Values under labels -/

namespace Labelled

theorem present?_insert (values : Labelled Datum) (l : String) {v : Datum} (hv : v ≠ .nothing)
    (label : String) :
    (values.insert l v).present? label = if label = l then some v else values.present? label := by
  unfold present?
  rw [find?_insert]
  split_ifs
  · cases v <;> first | exact absurd rfl hv | rfl
  · rfl

/-- The extent of a list leaves all labels alone but the three that it uses. -/
theorem present?_insertExtent (values : Labelled Datum) (xs : List Float) {name label : String}
    (h : label ∉ [name ++ "_min", name ++ "_mean", name ++ "_max"]) :
    (values.insertExtent name xs).present? label = values.present? label := by
  simp only [List.mem_cons, List.not_mem_nil, or_false, not_or] at h
  obtain ⟨hleast, hmean, hgreatest⟩ := h
  unfold insertExtent
  split
  · rfl
  · simp [present?_insert, hleast, hmean, hgreatest]

end Labelled

/-! ## Summaries -/

namespace LevelReport

variable {R : Type}

/-- The sizes and the numbers of entries are integers, and truncation has not added entries. -/
structure IsPrintable (r : LevelReport) : Prop where
  /-- The number of the level. -/
  level : ∃ k, r.level = .integer k
  /-- The number of points. -/
  fineSize : ∃ k, r.fineSize = .integer k
  /-- The number of points of the next level. -/
  coarseSize : ∃ k, r.coarseSize = .integer k
  /-- The numbers of entries before and after truncation. -/
  entries : r.extra.present? "P_nnz_untruncated" = none ∨ ∃ before after : Nat, after ≤ before ∧
    r.extra.present? "P_nnz_untruncated" = some (.integer before) ∧
    r.extra.present? "P_nnz" = some (.integer after)

variable {r : LevelReport}

theorem exists_quotient_eq_ok {after before : Nat} (h : after ≤ before) :
    ∃ x, Datum.quotient (.integer after) (.integer before) = (.ok x : Except (Fault R) Float) := by
  have hfinite : (nearestQuotient after before).isInf = false := isInf_nearestQuotient (by omega)
  refine ⟨nearestQuotient after before, ?_⟩
  simp only [Datum.quotient, Datum.toInteger?, Int.toNat_natCast, hfinite]
  rfl

/-- The line on truncation can be written, if there is one. -/
theorem IsPrintable.exists_truncationLine_eq_ok (h : r.IsPrintable) (indent : String) :
    ∃ lines, r.truncationLine indent = (.ok lines : Except (Fault R) (List String)) := by
  unfold truncationLine
  rcases h.entries with hnone | ⟨before, after, hle, hbefore, hafter⟩
  · rw [hnone]
    exact ⟨_, rfl⟩
  · obtain ⟨kept, hkept⟩ := exists_quotient_eq_ok (R := R) hle
    simp only [hbefore, hafter, Datum.isPositive, hkept]
    -- of no entries no part is told
    cases decide ((0 : Int) < before) with
    | false => exact ⟨_, rfl⟩
    | true => exact ⟨_, rfl⟩

/-- A report with values of the right kinds has a summary. -/
theorem IsPrintable.exists_summary_eq_ok (h : r.IsPrintable) (title indent : String) :
    ∃ text, r.summary (.text title) indent = (.ok text : Except (Fault R) String) := by
  obtain ⟨level, hlevel⟩ := h.level
  obtain ⟨fine, hfine⟩ := h.fineSize
  obtain ⟨coarse, hcoarse⟩ := h.coarseSize
  obtain ⟨lines, hlines⟩ := h.exists_truncationLine_eq_ok (R := R) indent
  unfold summary
  rw [hlevel, hfine, hcoarse, hlines]
  exact ⟨_, rfl⟩

/-- Whether a report can be printed does not depend on the time that was spent. -/
theorem IsPrintable.withTimings (h : r.IsPrintable) (timings : Labelled Float) :
    ({ r with timings } : LevelReport).IsPrintable := ⟨h.level, h.fineSize, h.coarseSize, h.entries⟩

/-- The report of a finished prolongator can be printed, if truncation has not added entries. -/
theorem isPrintable_complete {n : Nat} {level size rounds : Int} {ratio : Float}
    {labels : Vector Label n} {converged : Bool} {columns : Nat} {rowLengths : List Nat}
    {untruncated : Option Int} (hlevel : r.level = .integer level)
    (hsize : r.fineSize = .integer size) (hextra : r.extra.present? "P_nnz_untruncated" = none)
    (hcount : untruncated = none ∨ ∃ before : Nat, untruncated = some (before : Int) ∧
      rowLengths.sum ≤ before) :
    (r.complete ratio labels rounds converged columns (rowLengths.map Int.ofNat)
      untruncated).IsPrintable := by
  refine ⟨⟨level, hlevel⟩, ⟨size, hsize⟩, ⟨columns, rfl⟩, ?_⟩
  have htotal : (rowLengths.map Int.ofNat).foldl (· + ·) 0 = (rowLengths.sum : Int) := by
    rw [foldl_add_ofNat, Int.zero_add]
  -- the extent of the row lengths is entered last, under names of its own
  simp only [complete, htotal]
  rw [Labelled.present?_insertExtent _ _ (by decide),
    Labelled.present?_insertExtent _ _ (by decide)]
  rcases hcount with rfl | ⟨before, rfl, hle⟩
  · exact .inl (by simp [Labelled.present?_insert, hextra])
  · refine .inr ⟨before, rowLengths.sum, hle, ?_, ?_⟩ <;> simp [Labelled.present?_insert]

end LevelReport

/-! ## Reports of prolongators -/

section Prolongators

variable {S V W : Type} {m n k : Nat} [Arith W]

theorem SparseMatrix.entryCount_eq (A : SparseMatrix V m n) : A.entryCount = A.rowLengths.sum := by
  rw [entryCount, entries, rowLengths, List.length_flatten]

/-- A truncated matrix has no more entries than the matrix that it was made from. -/
theorem Truncation.entryCount_le [Storage V V W] {P M : SparseMatrix V n k} {ratio : W}
    (h : truncated P ratio n = .ok M) : M.entryCount ≤ P.entryCount := by
  obtain ⟨_, hsizes, -⟩ := exists_of_bind_eq_ok h
  obtain ⟨_, hcheck, -⟩ := exists_of_bind_eq_ok hsizes
  obtain rfl := Except.ok.inj ((truncated_eq_ok P (of_ite_eq_ok hcheck)).symm.trans h)
  simp only [SparseMatrix.entryCount_eq, SparseMatrix.rowLengths_eq, SparseMatrix.row_ofRows]
  refine List.sum_le_sum fun i _ => ?_
  rw [length_rows]
  exact List.length_filter_le _ _

variable [Storage V V W]

theorem ensures_truncateIfAsked (P : SparseMatrix V n k) (ratio : W) :
    (truncateIfAsked P ratio).Ensures fun (M, untruncated) => untruncated = none ∨
      ∃ before : Nat, untruncated = some (before : Int) ∧ M.rowLengths.sum ≤ before := by
  unfold truncateIfAsked
  split_ifs
  · have hstep : (Setup.ofResult (Truncation.truncated P ratio n) :
        Setup Float (Fault W) _).Gives id (Truncation.truncated P ratio n) :=
      Setup.gives_ofResult _
    refine (Setup.gives_timed hstep).ensures.bind fun M hM => ?_
    refine .pure (.inr ⟨P.entryCount, rfl, ?_⟩)
    rw [← SparseMatrix.entryCount_eq]
    exact Truncation.entryCount_le hM
  · exact .pure (.inl rfl)

variable [Arith V]

/-- Interpolation keeps no number of entries among its diagnostics. -/
theorem ensures_interpolate (graph : StrengthGraph V n) (labels : Vector Label n)
    (diagonal : Vector W n) (extent : Extent) (p : Parameters W) :
    (interpolate graph labels diagonal extent p).Ensures fun (_, extra) =>
      extra.present? "P_nnz_untruncated" = none := by
  unfold interpolate
  split
  · exact .then fun _ => .pure rfl
  · exact .then fun _ => .then fun _ => .pure rfl

/-- The report of a prolongator can be printed. -/
theorem ensures_prolongateWithin_isPrintable [Storage S V W] (A : SparseMatrix S n n)
    (extent : Extent) (p : Parameters W) (level : Int) :
    (prolongateWithin A extent p (.integer level)).Ensures fun (_, report) =>
      report.IsPrintable := by
  refine .then fun _ => .then fun (graph, weights) => .then fun splitting => ?_
  refine (ensures_interpolate graph splitting.labels _ extent p).bind ?_
  intro (buffer, extra) hextra
  refine (ensures_truncateIfAsked _ p.truncation).bind fun (matrix, untruncated) hcount => ?_
  exact .then fun timings => .pure (LevelReport.isPrintable_complete rfl rfl hextra hcount)

end Prolongators

end Multigrid
