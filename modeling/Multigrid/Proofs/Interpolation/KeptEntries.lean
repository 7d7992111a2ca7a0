import Multigrid.Proofs.Interpolation.Counting
import Multigrid.Proofs.Scalar.BandRatio
import Multigrid.Proofs.Sparse.WellFormed

/-!
# The two passes of direct interpolation

The first pass counts the entries of every row and the second one writes them.  In between the
counts become a row pointer and the coarse points get their numbers.  The second pass may be given
the ends of the bands by the first one, or find them again.

Strong entries have to be comparable, and that is all: other entries need not be, values may be
infinite or zero, and a row may store a column twice.  Both passes then keep the strong coarse
entries that do not lie strictly between the ends of the band.  An extreme of these entries is never
inside of the band, because a part of it lies between it and zero, so a row that has any entry to
keep keeps one.  The weights leave the first slot of every coarse row to its unit, and together the
writes meet every slot once.

## Main definitions

* `Direct.kept`: the strong coarse entries outside of the band
* `Direct.Agrees`: a buffer on which the two passes agree

## Main results

* `Direct.kept_eq_nil_iff`: a row that has strong coarse entries keeps one
* `Direct.exists_agrees`: the two passes agree
-/

namespace Multigrid

variable {V W R : Type} {n : Nat} [Arith V]

namespace Direct

section Kept

variable (G : StrengthGraph V n) (labels : Vector Label n)

/-- The strong coarse entries of row `i` that do not lie strictly between the ends of its band. -/
def kept (i : Fin n) : List (Connection V n) :=
  (strongCoarse G labels i).filter fun c => !(band G labels i).isInside c.value

variable {G labels}

theorem filter_isKept_eq_kept {i : Fin n} (hi : labels.get i ≠ .coarse) :
    (G.row i).filter (isKept labels (band G labels i) i) = kept G labels i := by
  rw [kept, strongCoarse, StrengthGraph.strongRow, List.filter_filter, List.filter_filter]
  apply List.filter_congr
  intro c _
  simp only [isKept, ne_eq, hi, not_false_eq_true, decide_true, Bool.and_true]
  ac_rfl

theorem get_rowSizes (h : CountsKept G labels) {i : Fin n} (hi : labels.get i ≠ .coarse) :
    (rowSizes G labels).get i = (kept G labels i).length := by
  have hget : (rowSizes G labels).get i = if labels.get i = .coarse then 1 else
      (strongCoarse G labels i).countP fun c => (band G labels i).isOutside c.value :=
    Vector.getElem_ofFn i.isLt
  rw [hget, if_neg hi, h i hi, List.countP_eq_length_filter, filter_isKept_eq_kept hi]

variable [BandOrder V]

/-- An extreme of the strong coarse entries does not lie inside of the band. -/
theorem exists_isInside_eq_false (h : G.HasComparableMarks) {i : Fin n}
    (hi : labels.get i ≠ .coarse) (hne : strongCoarse G labels i ≠ []) :
    ∃ c ∈ strongCoarse G labels i, (band G labels i).isInside c.value = false := by
  have hmarks : ∀ c ∈ strongCoarse G labels i, c.value ≤ c.value := fun c hc =>
    h i c (List.mem_of_mem_filter (List.mem_of_mem_filter hc))
      (List.mem_filter.mp (List.mem_of_mem_filter hc)).2
  obtain ⟨values, hvalues⟩ : ∃ values, (strongCoarse G labels i).map (·.value) = values := ⟨_, rfl⟩
  have hentry {x : V} (hx : x ∈ values) : ∃ c ∈ strongCoarse G labels i, c.value = x := by
    rwa [← hvalues, List.mem_map] at hx
  have hself : ∀ x ∈ (0 : V) :: values, x ≤ x := by
    simpa [← hvalues] using And.intro ValueOrder.zero_le_zero hmarks
  have hbelow {x y : V} (hxy : x ≤ y) : ¬ y < x := fun hlt => ValueOrder.not_le_of_lt hlt hxy
  -- with comparable entries both ends of the band are parts of zero or of entries
  obtain ⟨hleast, hlow⟩ := (isExtreme_foldl_least values 0).resolve_right
    fun ⟨_, x, hx, hxx⟩ => hxx (hself x hx)
  obtain ⟨hgreatest, hhigh⟩ := (isExtreme_foldl_greatest values 0).resolve_right
    fun ⟨_, x, hx, hxx⟩ => hxx (hself x hx)
  have hlower : (band G labels i).lower = values.foldl Arith.least 0 * bandRatio := by
    rw [band, if_neg hi, ← hvalues]
  have hupper : (band G labels i).upper = values.foldl Arith.greatest 0 * bandRatio := by
    rw [band, if_neg hi, ← hvalues]
  have hleastPart := BandOrder.le_mul_ratio (hlow 0 List.mem_cons_self)
  have hgreatestPart := BandOrder.mul_ratio_le (hhigh 0 List.mem_cons_self)
  simp only [Band.isInside, decide_eq_false_iff_not, hlower, hupper]
  rcases List.mem_cons.mp hleast with hleast | hleast
  · rcases List.mem_cons.mp hgreatest with hgreatest | hgreatest
    · -- without an entry beyond zero, all entries are alike to the ends of the band
      obtain ⟨c, hc⟩ := List.exists_mem_of_ne_nil _ hne
      have hc0 : c.value ≤ 0 := hgreatest ▸ hhigh c.value
        (List.mem_cons_of_mem _ (hvalues ▸ List.mem_map_of_mem hc))
      rw [hleast] at hleastPart ⊢
      exact ⟨c, hc, fun hlt => hbelow (ValueOrder.le_trans hc0 hleastPart) hlt.1⟩
    · obtain ⟨c, hc, heq⟩ := hentry hgreatest
      exact ⟨c, hc, fun hlt => hbelow (heq ▸ hgreatestPart) hlt.2⟩
  · obtain ⟨c, hc, heq⟩ := hentry hleast
    exact ⟨c, hc, fun hlt => hbelow (heq ▸ hleastPart) hlt.1⟩

/-- A row that has strong coarse entries keeps one of them. -/
theorem kept_eq_nil_iff (h : G.HasComparableMarks) {i : Fin n} (hi : labels.get i ≠ .coarse) :
    kept G labels i = [] ↔ strongCoarse G labels i = [] := by
  refine ⟨fun hnil => ?_, fun hnil => by rw [kept, hnil, List.filter_nil]⟩
  by_contra hne
  obtain ⟨c, hc, hout⟩ := exists_isInside_eq_false h hi hne
  exact List.ne_nil_of_mem (List.mem_filter.mpr ⟨hc, by rw [hout]; rfl⟩) hnil

end Kept

/-! ## Both passes -/

section Passes

variable [Arith W] [Storage V V W]

/-- The row pointer between the two passes. -/
def sizedPointer (G : StrengthGraph V n) (labels : Vector Label n) : List Int :=
  runningTotals ((rowSizes G labels).toList.map Int.ofNat)

/-- A buffer on which the two passes agree.  The ends of the bands are the ones that the first pass
has found, given to the second pass or not. -/
structure Agrees (R : Type) (G : StrengthGraph V n) (labels : Vector Label n)
    (buffer : RowBuffer V n) : Prop where
  /-- The second pass returns the buffer. -/
  fill_eq : ∀ lower ∈ [none, some ((bands G labels).map Band.lower)],
    ∀ upper ∈ [none, some ((bands G labels).map Band.upper)],
      fill G labels n lower upper (sizedPointer G labels) n =
        (.ok buffer : Except (Fault R) (RowBuffer V n))
  /-- Its writes meet every slot once. -/
  writes_once : ∀ lower ∈ [none, some ((bands G labels).map Band.lower)],
    ∀ upper ∈ [none, some ((bands G labels).map Band.upper)], ∃ planned,
      writes G labels n lower upper (sizedPointer G labels) =
        (.ok planned : Except (Fault R) (List (Int × Entry n V))) ∧
      (planned.map Prod.fst).Perm ((List.range buffer.slots.size).map Int.ofNat)
  /-- No slot is left open, and the numbers of coarse points are the only change to the columns. -/
  holds : buffer.Holds (coarseNumbers labels).get (coarseColumns labels buffer)
  /-- There are as many numbers as coarse points. -/
  count_eq : (consecutiveNumbers (coarseFlags labels).toList).2 = coarseCount labels
  /-- A row that is not coarse holds the entries that are kept, in storage order. -/
  row_eq : ∀ i, labels.get i ≠ .coarse →
    ((coarseColumns labels buffer).row i).map (fun e => (e.column.val, e.value)) =
      (kept G labels i).map fun c =>
        let (negative, positive) := factors G labels (band G labels i) i
        ((coarseNumbers labels).get c.column,
          (if c.value < 0 then negative else positive) * c.value)
  /-- They are as many as the first pass has counted. -/
  rowSize_eq : ∀ i, labels.get i ≠ .coarse → (rowSizes G labels).get i = (kept G labels i).length
  /-- If there is a strong coarse entry, one is kept. -/
  kept_eq_nil_iff : ∀ i, labels.get i ≠ .coarse →
    (kept G labels i = [] ↔ strongCoarse G labels i = [])
  /-- A coarse row is a unit row. -/
  unit_eq : ∀ i, labels.get i = .coarse →
    ((coarseColumns labels buffer).row i).map (fun e => (e.column.val, e.value)) =
      [((coarseNumbers labels).get i, 1)]

variable {G : StrengthGraph V n} {labels : Vector Label n}

theorem agrees_ofRows [BandOrder V] (h : G.HasComparableMarks) :
    Agrees R G labels (.ofRows (rows G labels) n) := by
  have hcounts := countsKept_of_hasComparableMarks labels h
  have hrow := map_row_coarseColumns_rows G labels
  have hpointer : sizedPointer G labels = rowPointer (rows G labels) :=
    (rowPointer_rows hcounts).symm
  constructor
  case fill_eq =>
    intro lower hlower upper hupper
    rw [hpointer]
    exact fill_eq_ok (by simpa using hlower) (by simpa using hupper)
  case writes_once =>
    intro lower hlower upper hupper
    obtain ⟨planned, hplanned, hperm⟩ :=
      exists_writes_eq_ok (R := R) (by simpa using hlower) (by simpa using hupper)
    refine ⟨planned, hpointer ▸ hplanned, (hperm.map Prod.fst).trans (List.Perm.of_eq ?_)⟩
    rw [RowBuffer.map_fst_placed]
    simp [RowBuffer.ofRows, RowBuffer.filled]
  case holds => exact RowBuffer.holds_ofRows hrow
  case count_eq => exact consecutiveNumbers_coarseFlags
  case row_eq =>
    intro i hi
    rw [hrow, rows, row, if_neg hi, weights, filter_isKept_eq_kept hi, List.map_map]
    rfl
  case rowSize_eq => exact fun i hi => get_rowSizes hcounts hi
  case kept_eq_nil_iff => exact fun i hi => Direct.kept_eq_nil_iff h hi
  case unit_eq =>
    intro i hi
    rw [hrow, rows, row, if_pos hi, List.map_singleton]

/-- The two passes agree if strong entries are comparable, and so they do for marks by
thresholds. -/
theorem exists_agrees [BandOrder V] (labels : Vector Label n) :
    (∀ G : StrengthGraph V n, G.HasComparableMarks → ∃ buffer, Agrees R G labels buffer) ∧
      ∀ (tolerance : V) (A : SparseMatrix V n n), ∃ buffer,
        Agrees R (.ofMatrix tolerance A) labels buffer :=
  ⟨fun _ h => ⟨_, agrees_ofRows h⟩,
    fun tolerance A => ⟨_, agrees_ofRows (StrengthGraph.hasComparableMarks_ofMatrix tolerance A)⟩⟩

/-- A point between two coarse ones.  Its row has strong zeros, ties with the ends of the band,
infinities and a value that is not a number. -/
def crowded : StrengthGraph Float 3 :=
  .ofRows fun i => ((List.finRange 3 ++ List.finRange 3 ++ List.finRange 3).zip
    [-1, 0 / 0, 0, -1 / 5, 1, 1 / 0, 0, 2, -0.1]).map fun (j, x) => ⟨⟨j, x⟩, i ≠ j ∧ j.val ≠ 1⟩

/-- The passes agree on the crowded row, and on the marks by a threshold of the same operator. -/
theorem exists_agrees_crowded :
    crowded.HasComparableMarks ∧
    (∃ buffer, Agrees Unit crowded ⟨#[.coarse, .fine, .coarse], rfl⟩ buffer) ∧
    ∃ buffer, Agrees Unit (.ofMatrix 0.25 crowded.operator) ⟨#[.coarse, .fine, .coarse], rfl⟩
      buffer := by
  have hmarks : crowded.HasComparableMarks := by
    unfold StrengthGraph.HasComparableMarks
    decide +kernel
  exact ⟨hmarks, (exists_agrees _).1 crowded hmarks, (exists_agrees _).2 0.25 crowded.operator⟩

end Passes

end Direct

end Multigrid
