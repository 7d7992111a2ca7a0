import Multigrid.Decimal.Style
import Multigrid.Scalar.Arith
import Multigrid.Scalar.Summation
import Multigrid.Session
import Multigrid.Splitting.Label
import Multigrid.Text.Datum

/-!
# Reports

A report keeps what was measured while a level was set up: its size, the time spent on every step,
and diagnostics under free names.  Its summary is a short text for reading.

A number is written in scientific notation with two places if it is below one hundredth or from
ten thousand on, and with three significant digits otherwise.

## Main definitions

* `compactText`, `durationText`: the texts of diagnostics and of durations
* `LevelReport`: what is kept for a level
* `LevelReport.coarseningRatio`, `LevelReport.complete`: the diagnostics of a finished prolongator
* `LevelReport.summary`, `smootherSummary`: the printed summaries
-/

namespace Multigrid

/-- A number in the compact form of a summary. -/
def compactNumber (x : Float) : String :=
  let size := x.abs
  if size != 0 && (size < 1e-2 || size ≥ 1e4) then Decimal.scientific 2 x else Decimal.general 3 x

/-- A diagnostic in the compact form of a summary; what is no number is shown as it is. -/
def compactText (value : Datum) : String :=
  match value.toReal? with
  | some x => compactNumber x
  | none => value.shown

/-- A duration in milliseconds, or in seconds from one second on. -/
def durationText (seconds : Float) : String :=
  if seconds < 1 then Decimal.padLeft 7 (Decimal.fixed 1 (seconds * 1e3)) ++ "ms"
  else Decimal.padLeft 7 (Decimal.fixed 2 seconds) ++ "s"

/-! ## Ranges -/

/-- The least value, the mean and the greatest value of a list that is not empty. -/
def extent? : List Float → Option (Float × Float × Float)
  | [] => none
  | x :: rest =>
    let mean := (0 + halvedSum (x :: rest)) / Float.ofNat (rest.length + 1)
    some (rest.foldl Arith.least x, mean, rest.foldl Arith.greatest x)

/-- Keeps the extent of a list under a name, unless the list is empty. -/
def Labelled.insertExtent (values : Labelled Datum) (name : String) (xs : List Float) :
    Labelled Datum :=
  match extent? xs with
  | none => values
  | some (least, mean, greatest) =>
    ((values.insert (name ++ "_min") (.real least)).insert (name ++ "_mean") (.real mean)).insert
      (name ++ "_max") (.real greatest)

/-- The diagnostic of a name, unless it is absent or nothing. -/
def Labelled.present? (values : Labelled Datum) (name : String) : Option Datum :=
  match values.find? name with
  | some .nothing => none
  | other => other

/-- The text of the extent under a name. -/
def Labelled.extentText (values : Labelled Datum) (name : String) : String :=
  match values.present? (name ++ "_min"), values.present? (name ++ "_mean"),
      values.present? (name ++ "_max") with
  | some least, some mean, some greatest =>
    compactText least ++ "/" ++ compactText mean ++ "/" ++ compactText greatest
  | _, _, _ => "n/a"

/-! ## Reports of a level -/

/-- What is kept for a level. -/
structure LevelReport where
  /-- The number of the level; the finest one has number zero. -/
  level : Datum
  /-- The number of points. -/
  fineSize : Datum
  /-- The number of points of the next level, as soon as there is one. -/
  coarseSize : Datum := .nothing
  /-- The seconds spent on every step. -/
  timings : Labelled Float := []
  /-- Further diagnostics. -/
  extra : Labelled Datum := []

namespace LevelReport

variable {R : Type}

/-- The factor by which the number of points shrinks; it is infinite if no coarse point is left. -/
def coarseningRatio (fineSize coarseSize : Nat) : Float :=
  if coarseSize = 0 then 1 / 0 else nearestQuotient fineSize coarseSize

/-- The same for the number of points that a report keeps. -/
def ratioTo (r : LevelReport) (coarseSize : Nat) : Except (Fault R) Float :=
  if coarseSize = 0 then .ok (1 / 0) else r.fineSize.quotient (.integer coarseSize)

/-- Enters the diagnostics of a finished prolongator: the coarsening ratio, the splitting with the
number of rounds and whether they sufficed, the number of columns and the lengths of the rows, and
the number of entries before truncation. -/
def complete {n : Nat} (r : LevelReport) (ratio : Float) (labels : Vector Label n) (rounds : Int)
    (converged : Bool) (columns : Nat) (rowLengths : List Int) (untruncated : Option Int) :
    LevelReport :=
  let extra := r.extra.insert "cr" (.real ratio)
  let extra := extra.insert "pmis_iters" (.integer rounds)
  let extra := extra.insert "pmis_converged" (.flag converged)
  let extra := extra.insert "n_fine_pts" (.integer (fineCount labels))
  let extra := extra.insert "P_nnz" (.integer (rowLengths.foldl (· + ·) 0))
  let extra := match untruncated with
    | some count => extra.insert "P_nnz_untruncated" (.integer count)
    | none => extra
  { r with
    coarseSize := .integer columns
    extra := extra.insertExtent "P_row" (rowLengths.map Float.ofInt) }

/-- The steps whose durations are summed up, in their order. -/
def steps : List String :=
  ["strength", "coarsen", "interp_nnz", "interp_fill", "truncate", "galerkin"]

/-- The line on truncation, if the numbers of entries before and after it are known and there was an
entry to drop. -/
def truncationLine (r : LevelReport) (indent : String) : Except (Fault R) (List String) := do
  match r.extra.present? "P_nnz_untruncated", r.extra.present? "P_nnz" with
  | some before, some after =>
    if ← before.isPositive then
      let kept ← after.quotient before
      return [indent ++ "        trunc : " ++ before.shown ++ " -> " ++ after.shown ++ "  drop=" ++
        compactNumber (1 - kept)]
    else return []
  | _, _ => return []

/-- The line of a duration. -/
def timeLine (indent label : String) (seconds : Float) : String :=
  indent ++ "        " ++ Decimal.padRight 11 label ++ " " ++ durationText seconds

/-- The summary of a level.  Every line starts with `indent`, and the first one goes on with
`title`. -/
def summary (r : LevelReport) (title : Datum) (indent : String) : Except (Fault R) String := do
  let shown (name : String) : String := ((r.extra.find? name).getD (.text "n/a")).shown
  let title ← title.aligned 4
  let level := Decimal.padRight 2 (← r.level.integerText)
  let fine := Decimal.padRight 7 (← r.fineSize.integerText)
  let coarse ← match r.coarseSize with
    | .nothing => pure (Decimal.padRight 7 "?")
    | count => count.aligned 7
  let undecided := match r.extra.present? "pmis_converged" with
    | some converged => !converged.isTruthy
    | none => false
  let truncation ← r.truncationLine indent
  let times := steps.filterMap fun label => (r.timings.find? label).map fun t => (label, t)
  let total := times.foldl (fun sum (_, t) => sum + t) 0
  let lines :=
    [indent ++ title ++ "  level=" ++ level ++ "  n=" ++ fine ++ " -> " ++ coarse ++
        "  cr=" ++ compactText ((r.extra.find? "cr").getD (.text "n/a")),
      indent ++ "      coarsening:",
      indent ++ "        iters : " ++ shown "pmis_iters" ++
        (if undecided then "  (NOT converged)" else ""),
      indent ++ "      prolongator:",
      indent ++ "        nnz   : " ++ shown "P_nnz",
      indent ++ "        row   : " ++ r.extra.extentText "P_row" ++ " (min/mean/max)"] ++
    truncation ++
    [indent ++ "      timing:"] ++
    times.map (fun (label, t) => timeLine indent label t) ++
    [timeLine indent "total" total]
  return String.join (lines.map (· ++ "\n"))

end LevelReport

/-- The summary of the time spent on smoothers. -/
def smootherSummary (seconds : Float) (indent : String) : String :=
  indent ++ "PMIS  smoother_setup  " ++ durationText seconds ++ "\n"

end Multigrid
