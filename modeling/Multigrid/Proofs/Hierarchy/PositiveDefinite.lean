import Multigrid.Proofs.Hierarchy.Extension
import Multigrid.Proofs.Interpolation.UnitRows

/-!
# Positive definite hierarchies

The Galerkin product `Pᵀ * A * P` of a symmetric positive definite operator is symmetric positive
definite if `P` is injective, and a prolongator is injective because it carries the coarse points
unchanged.  This is so at every level and for all choices of a caller: neither the tolerance nor the
scheme enters, a splitting that left points undecided is as good as any other, and so is a truncated
prolongator.

## Main definitions

* `Coarsening.number`: the column of a coarse point
* `Coarsening.CarriesCoarsePoints`: the rows of coarse points are unit rows
* `Level.IsDefinite`: what holds of every level

## Main results

* `Hierarchy.Step.isDefinite`: a step keeps a hierarchy definite
* `setUp_isDefinite`: all levels of a hierarchy
-/

namespace Multigrid

/-! ## Coarsenings -/

/-- The column of a coarse point: the number of coarse points before it. -/
def Coarsening.number {V : Type} {n : Nat} (c : Coarsening V n) (i : Fin n) : Nat :=
  (consecutiveNumbers c.splitting.toList).1.getD i 0

/-- Every column belongs to one coarse point, whose row has the entry one in that column and no
other. -/
structure Coarsening.CarriesCoarsePoints {n : Nat} (c : Coarsening Rat n) : Prop where
  /-- Coarse points and columns correspond to each other. -/
  bijOn : Set.BijOn c.number {i | c.splitting.get i = 1} (Set.Iio c.coarseSize)
  /-- The row of a coarse point. -/
  unit {i : Fin n} : c.splitting.get i = 1 →
    ∃ column : Fin c.coarseSize, column.val = c.number i ∧ c.prolongator.row i = [⟨column, 1⟩]
  /-- The prolongator is injective. -/
  injective : Function.Injective c.prolongator.coefficients.mulVec

section Prolongation

variable {n : Nat} {labels : Vector Label n}

theorem get_coarseFlags_eq_one {i : Fin n} :
    (coarseFlags labels).get i = 1 ↔ labels.get i = .coarse := by
  rw [get_coarseFlags]
  split_ifs with hi <;> simp [hi]

/-- What a prolongator with unit rows leads to the next level by. -/
theorem HasUnitRows.carriesCoarsePoints {P : SparseMatrix Rat n (coarseCount labels)}
    (hP : HasUnitRows labels P) (R : SparseMatrix Rat (coarseCount labels) n) :
    (⟨coarseCount labels, coarseFlags labels, P, R⟩ : Coarsening Rat n).CarriesCoarsePoints where
  bijOn := by
    have hnumber : Coarsening.number ⟨coarseCount labels, coarseFlags labels, P, R⟩ =
        (coarseNumbers labels).get := funext getD_consecutiveNumbers
    rw [hnumber]
    simp only [get_coarseFlags_eq_one]
    exact bijOn_coarseNumbers
  unit {i} hi := ⟨⟨_, coarseNumbers_lt_coarseCount (get_coarseFlags_eq_one.mp hi)⟩,
    (getD_consecutiveNumbers i).symm, hP i (get_coarseFlags_eq_one.mp hi)⟩
  injective := hP.injective_mulVec

end Prolongation

/-! ## Levels -/

/-- The operator is symmetric positive definite, and the prolongator to the level below, if there is
one, carries the coarse points. -/
structure Level.IsDefinite (l : Level Rat) : Prop where
  /-- The operator. -/
  posDef : l.operator.coefficients.PosDef
  /-- The prolongator. -/
  carries (c : Coarsening Rat l.size) : l.coarsening = some c → c.CarriesCoarsePoints

/-- The coarse operator of an injective prolongator. -/
theorem SparseMatrix.posDef_galerkin {n k : Nat} {A : SparseMatrix Rat n n}
    {P : SparseMatrix Rat n k} (hA : A.coefficients.PosDef)
    (hP : Function.Injective P.coefficients.mulVec) : (A.galerkin P).2.coefficients.PosDef := by
  rw [coefficients_galerkin, ← Matrix.conjTranspose_eq_transpose_of_trivial]
  exact hA.conjTranspose_mul_mul_same hP

theorem Level.isDefinite_of_ofOperator {n : Nat} {A : SparseMatrix Rat n n} {l : Level Rat}
    (hA : A.coefficients.PosDef)
    (h : Level.ofOperator A = (.ok l : Except (Fault Rat) (Level Rat))) : l.IsDefinite := by
  obtain ⟨-, rfl⟩ := Level.of_ofOperator_eq_ok h
  exact ⟨hA, fun c hc => by cases hc⟩

namespace Hierarchy

variable {h h' : Hierarchy Rat}

/-- A step keeps a hierarchy definite. -/
theorem Step.isDefinite {p : Parameters Rat} {extended : Bool} (hstep : Step p h extended h')
    (hlevels : ∀ l ∈ h.levels, l.IsDefinite) : ∀ l ∈ h'.levels, l.IsDefinite := by
  have hupper : ∀ l ∈ h.upper, l.IsDefinite := fun l hl => hlevels l (List.mem_append_left _ hl)
  have hlast : h.last.IsDefinite := hlevels h.last (List.mem_append_right _ List.mem_cons_self)
  cases hstep with
  | stays report =>
    intro l hl
    rcases List.mem_append.mp hl with hl | hl
    · exact hupper l hl
    · obtain rfl := List.mem_singleton.mp hl
      exact ⟨hlast.posDef, hlast.carries⟩
  | @grows q next report hq _ hnext =>
    have hunit := Parameters.hasUnitRows_prolongation hq
    -- the old last level has a coarsening now, and the new one an operator
    have hcoarsened := hunit.carriesCoarsePoints (h.last.operator.galerkin q.matrix).1
    have hcoarse := SparseMatrix.posDef_galerkin hlast.posDef hunit.injective_mulVec
    intro l hl
    rcases List.mem_append.mp hl with hl | hl
    · rcases List.mem_append.mp hl with hl | hl
      · exact hupper l hl
      · obtain rfl := List.mem_singleton.mp hl
        refine ⟨hlast.posDef, fun c hc => ?_⟩
        cases hc
        exact hcoarsened
    · obtain rfl := List.mem_singleton.mp hl
      exact Level.isDefinite_of_ofOperator hcoarse hnext

theorem isDefinite_of_ofOperator {n : Nat} {A : SparseMatrix Rat n n}
    (hA : A.coefficients.PosDef)
    (hstart : Hierarchy.ofOperator A = (.ok h : Except (Fault Rat) (Hierarchy Rat))) :
    ∀ l ∈ h.levels, l.IsDefinite := by
  obtain ⟨l, hl, rfl⟩ := exists_level_of_ofOperator_eq_ok hstart
  intro l' hl'
  obtain rfl := List.mem_singleton.mp hl'
  exact Level.isDefinite_of_ofOperator hA hl

end Hierarchy

/-- Neither the order of entries nor entries that are zero make a difference. -/
theorem SparseMatrix.coefficients_finest {n : Nat} (A : SparseMatrix Rat n n) :
    (A.finest : SparseMatrix Rat n n).coefficients = A.coefficients := by
  have hconverted : A.sorted.map Floating.toFloating = A.sorted := A.sorted.map_id_eq
  rw [finest, coefficients_sorted, coefficients_withoutZeros, hconverted, coefficients_sorted]

/-- In exact arithmetic, for a symmetric positive definite operator in any form and all choices of a
caller, every level of a hierarchy whose setup completes has a symmetric positive definite operator,
and a prolongator that carries the coarse points, unless it is the last one. -/
theorem setUp_isDefinite {n : Nat} {source : MatrixSource Rat} {A : SparseMatrix Rat n n}
    (hsource : source.toMatrix? = some ⟨n, n, A⟩) (hA : A.coefficients.PosDef)
    (o : SolverOptions Rat) (session : Session Float) {h : Hierarchy Rat}
    {smoothers : List SmootherPair}
    (hrun : ((setUp source o).run session).1 = .ok (h, smoothers)) :
    ∀ l ∈ h.levels, l.operator.coefficients.PosDef ∧
      ∀ c, l.coarsening = some c → c.CarriesCoarsePoints := by
  obtain ⟨start, hstart, hdescends⟩ := ensures_setUp hsource o session _ hrun
  have hlevels := hdescends.invariant (fun p h h' hstep => hstep.isDefinite)
    (Hierarchy.isDefinite_of_ofOperator (A.coefficients_finest ▸ hA) hstart)
  exact fun l hl => ⟨(hlevels l hl).posDef, (hlevels l hl).carries⟩

/-! ## A hierarchy of two levels -/

/-- A matrix whose rows are in order of columns stays as it is. -/
theorem SparseMatrix.sorted_eq_self {m n : Nat} {A : SparseMatrix Rat m n}
    (h : ∀ i, (A.row i).Pairwise fun e f => e.column ≤ f.column) : A.sorted = A := by
  apply eq_of_row_eq
  intro i
  rw [sorted, row_ofRows]
  exact List.mergeSort_of_pairwise ((h i).imp fun hle => decide_eq_true hle)

/-- Three points in a row. -/
def path : SparseMatrix Rat 3 3 := .ofDense !![2, -1, 0; -1, 2, -1; 0, -1, 2]

/-- Options under which no tie is broken and a single point is not coarsened. -/
def pathOptions : SolverOptions Rat :=
  { interpolation := .text "direct", tieBreak := .flag false, maxCoarse := .integer 1 }

/-- The parameters of these options. -/
def pathParameters : Parameters Rat := { scheme := .direct, tieBreak := false, seed := [] }

theorem posDef_path : path.coefficients.PosDef := by
  have hcoefficients : path.coefficients = !![2, -1, 0; -1, 2, -1; 0, -1, 2] :=
    Matrix.ext (SparseMatrix.coefficient_ofDense _)
  rw [hcoefficients]
  refine .of_dotProduct_mulVec_pos (by decide +kernel) fun x hx => ?_
  -- the form is a sum of squares, which are zero for the zero vector only
  have hform : star x ⬝ᵥ (!![2, -1, 0; -1, 2, -1; 0, -1, 2] : Matrix (Fin 3) (Fin 3) Rat).mulVec x =
      x 0 ^ 2 + (x 0 - x 1) ^ 2 + (x 1 - x 2) ^ 2 + x 2 ^ 2 := by
    simp [dotProduct, Matrix.mulVec, Fin.sum_univ_three]
    ring
  rw [hform]
  by_contra hle
  have hsum := not_lt.mp hle
  have hx0 := sq_nonneg (x 0)
  have hx1 := sq_nonneg (x 0 - x 1)
  have hx2 := sq_nonneg (x 1 - x 2)
  have hx3 := sq_nonneg (x 2)
  have h0 : x 0 ^ 2 = 0 := by linarith
  have h1 : (x 0 - x 1) ^ 2 = 0 := by linarith
  have h2 : x 2 ^ 2 = 0 := by linarith
  rw [sq_eq_zero_iff] at h0 h1 h2
  have h1 : x 1 = 0 := by rw [← sub_eq_zero.mp h1, h0]
  apply hx
  funext i
  fin_cases i <;> assumption

theorem finest_path : (path.finest : SparseMatrix Rat 3 3) = path := by
  have hsorted : path.sorted = path := SparseMatrix.sorted_eq_self (by decide)
  have hzeros : path.withoutZeros = path := SparseMatrix.eq_of_row_eq (by
    intro i
    fin_cases i <;> with_unfolding_all rfl)
  have hconverted : path.map Floating.toFloating = path := path.map_id_eq
  rw [SparseMatrix.finest, hsorted, hconverted, hzeros, hsorted]

/-- The splitting of the path. -/
def pathSplitting : Splitting 3 := ⟨#v[.fine, .coarse, .fine], 1, true⟩

theorem exists_prolongation_path : ∃ q : Prolongation Rat 3,
    pathParameters.prolongation path = .ok q ∧ q.splitting.coarseCount = 1 := by
  have hmeasured : path.measured pathParameters.tolerance pathParameters.influenceStart =
      .ok (.ofMatrix pathParameters.tolerance path, #v[1, 2, 1]) := by
    with_unfolding_all rfl
  have hsplit : (StrengthGraph.ofMatrix pathParameters.tolerance path).split
      (#v[1, 2, 1] : Vector Float32 3) pathParameters.maxRounds =
        (.ok pathSplitting : Except (Fault Rat) (Splitting 3)) := by
    with_unfolding_all rfl
  have hvalue : path.map Storage.value = path := path.map_id_eq
  have hbuffer : ∃ buffer, interpolated (StrengthGraph.ofMatrix pathParameters.tolerance path)
      pathSplitting.labels (path.diagonal.map Storage.widen) pathParameters = .ok buffer :=
    ⟨_, Direct.prolongator_eq_ok (Direct.countsKept_exact _ _)⟩
  obtain ⟨buffer, hbuffer⟩ := hbuffer
  have hwhole : truncatedIfAsked (Prolongation.ofBuffer pathSplitting buffer).matrix
      pathParameters.truncation = .ok (Prolongation.ofBuffer pathSplitting buffer).matrix :=
    if_neg (lt_irrefl 0)
  have hcount : pathSplitting.coarseCount = 1 := by decide
  refine ⟨Prolongation.ofBuffer pathSplitting buffer, ?_, hcount⟩
  rw [Parameters.prolongation, hvalue]
  exact bind_eq_ok hmeasured (bind_eq_ok hsplit (bind_eq_ok hbuffer (bind_eq_ok hwhole rfl)))

/-- The hierarchy of the path alone. -/
def pathStart : Hierarchy Rat :=
  ⟨[], { size := 3
         operator := path
         density := Float.ofNat path.entryCount / Float.ofNat (3 * 3) }⟩

/-- The path is coarsened to a single point, and that is not coarsened. -/
theorem completes_descend_path :
    (pathStart.descend pathOptions 10 [] 3).Completes fun result =>
      result.1.levels.map Level.size = [3, 1] := by
  obtain ⟨q, hq, hcount⟩ := exists_prolongation_path
  have hmore : pathOptions.asksForMore 10 1 3 = .ok true := by
    with_unfolding_all rfl
  have hlevel : pathOptions.levelOptions 10 0 = .ok pathOptions.toOptions := by
    with_unfolding_all rfl
  have hresolve : (pathOptions.toOptions.resolve : Except (Fault Rat) (Parameters Rat)) =
      .ok pathParameters := by
    with_unfolding_all rfl
  have hsmoothers : pathOptions.smoothers = .ok
      (some (.gaussSeidel .symmetric 1), some (.gaussSeidel .symmetric 1)) := by
    with_unfolding_all rfl
  have hpos : 0 < q.splitting.coarseCount := by omega
  have hlt : q.splitting.coarseCount < 3 := by omega
  rw [Hierarchy.descend]
  refine (Setup.Completes.ofResult hmore rfl).bind ?_
  rintro _ rfl
  refine (Setup.Completes.ofResult hlevel rfl).bind ?_
  rintro _ rfl
  refine (Setup.Completes.ofResult hresolve rfl).bind ?_
  rintro _ rfl
  refine (Hierarchy.completes_extend (h := pathStart) hq).bind ?_
  rintro ⟨_, h⟩ hstep
  obtain ⟨rfl, hupper, hsize⟩ := hstep.sizes_eq hq hpos hlt
  refine (Setup.Completes.ofResult hsmoothers rfl).bind ?_
  rintro _ rfl
  -- the second level has a single point
  have hlast : h.last.size = 1 := hsize.trans hcount
  have hlevels : h.count = 2 := by
    rw [Hierarchy.count, ← List.length_map (f := Level.size), hupper]
    rfl
  have hdone : pathOptions.asksForMore 10 h.count h.last.size = .ok false := by
    rw [hlevels, hlast]
    with_unfolding_all rfl
  rw [Hierarchy.descend]
  refine (Setup.Completes.ofResult hdone rfl).bind ?_
  rintro _ rfl
  refine Setup.Completes.pure ?_
  show h.levels.map Level.size = [3, 1]
  rw [Hierarchy.levels, List.map_append, hupper, List.map_singleton, hlast]
  rfl

theorem completes_setUp_path :
    (setUp (.byRows ⟨3, 3, path⟩) pathOptions).Completes fun result =>
      result.1.levels.map Level.size = [3, 1] := by
  have haccept : ((MatrixSource.byRows ⟨3, 3, path⟩).acceptSquare "A" :
      Setup Float (Fault Rat) (SquareMatrix Rat)).Completes (· = ⟨3, path.sorted⟩) :=
    fun session => ⟨_, rfl, rfl⟩
  have hprepare : pathOptions.prepare 3 = .ok 10 := by
    with_unfolding_all rfl
  have hstart : Hierarchy.ofOperator path.finest =
      (.ok pathStart : Except (Fault Rat) (Hierarchy Rat)) := by
    rw [finest_path]
    rfl
  have hconclude : pathOptions.conclude.Completes fun _ => True := fun session => ⟨(), rfl, trivial⟩
  rw [setUp]
  refine haccept.bind ?_
  rintro _ rfl
  refine (Setup.Completes.ofResult hprepare rfl).bind ?_
  rintro _ rfl
  refine (Setup.Completes.ofResult hstart rfl).bind ?_
  rintro _ rfl
  refine completes_descend_path.bind ?_
  rintro ⟨h, smoothers⟩ hsizes
  exact hconclude.bind fun _ _ => .pure hsizes

/-- Both levels of the path, of which the middle point is coarse. -/
theorem setUp_isDefinite_path :
    (MatrixSource.byRows ⟨3, 3, path⟩).toMatrix? = some ⟨3, 3, path⟩ ∧ path.coefficients.PosDef ∧
    ∀ session : Session Float, ∃ h smoothers,
      ((setUp (.byRows ⟨3, 3, path⟩) pathOptions).run session).1 = .ok (h, smoothers) ∧
      h.levels.map Level.size = [3, 1] ∧
      ∀ l ∈ h.levels, l.operator.coefficients.PosDef ∧
        ∀ c, l.coarsening = some c → c.CarriesCoarsePoints := by
  refine ⟨rfl, posDef_path, fun session => ?_⟩
  obtain ⟨⟨h, smoothers⟩, hrun, hsizes⟩ := completes_setUp_path session
  exact ⟨h, smoothers, hrun, hsizes, setUp_isDefinite rfl posDef_path pathOptions session hrun⟩

end Multigrid
