import Multigrid.Hierarchy.Level
import Multigrid.Hierarchy.Smoother
import Multigrid.Scalar.Floating
import Multigrid.Sparse.Source

/-!
# Setting up a hierarchy

The setup takes an operator in any form and builds levels as long as there are too many points and
not too many levels.  The tolerance may differ from level to level, and every level splits with a
seed of its own, or with a number of its own that the system draws if there is no seed.  After every
new level the two smoothers of the level above it are made.

An operator that has entries outside of it is accepted as well, as long as no level below it is
asked for.

## Main definitions

* `SolverOptions`, `SolverOptions.ofFields`: what a caller may choose
* `Hierarchy.descend`: the levels below a given one
* `setUp`: the hierarchy of an operator
* `StoredMatrix.setUp`: the same for an operator with entries outside
-/

namespace Multigrid

/-- A seed advanced by a number of levels.  No seed stays none, and what is no number cannot be
advanced. -/
def Datum.advanced {R : Type} (seed : Datum) (level : Nat) : Except (Fault R) Datum :=
  match seed with
  | .nothing => .ok .nothing
  | .real x => .ok (.real (x + Float.ofNat level))
  | other => return .integer ((← other.toInteger) + (level : Int))

/-- The choices of a caller. -/
structure SolverOptions (W : Type) [OfScientific W] [Zero W] extends Options W where
  /-- The strength tolerance on every level. -/
  tolerances : PerLevel W := .same 0.25
  /-- The smoother before the coarse correction. -/
  presmoother : Datum := .text "gs"
  /-- The smoother after the coarse correction. -/
  postsmoother : Datum := .text "gs"
  /-- The greatest number of levels. -/
  maxLevels : Datum := .integer 10
  /-- A level with at most this many points is not coarsened. -/
  maxCoarse : Datum := .integer 100
  /-- A name under which there is nothing to choose. -/
  unknown : Option String := none

/-- The tolerances that a value names: one number, or one for every level. -/
def PerLevel.ofDatum {R : Type} : Datum → Except (Fault R) (PerLevel Float)
  | .list values => return .each (← values.mapM Datum.toNumber)
  | value => return .same (← value.toNumber)

namespace SolverOptions

/-- Sets the option of a name, unless it is one of the two that are numbers.  A name that is not
known is remembered. -/
def setField (o : SolverOptions Float) (field : String × Datum) : SolverOptions Float :=
  let (name, value) := field
  match name with
  | "eps" | "trunc" | "coarse_solver" => o
  | "presmoother" => { o with presmoother := value }
  | "postsmoother" => { o with postsmoother := value }
  | "max_levels" => { o with maxLevels := value }
  | "max_coarse" => { o with maxCoarse := value }
  | _ =>
    match o.toOptions.setField field with
    | .ok options => { o with toOptions := options }
    | .error _ => { o with unknown := some name }

/-- The choices with the given fields. -/
def ofFields (fields : Labelled Datum) (entropy : Nat → Nat := fun _ => 0) :
    Except (Fault Float) (SolverOptions Float) := do
  let tolerances ← PerLevel.ofDatum ((fields.find? "eps").getD (.real 0.25))
  let truncation ← Options.number fields "trunc" 0
  return fields.foldl setField { tolerances, truncation, entropy }

end SolverOptions

/-- The smoothers of a level, before and after the coarse correction. -/
abbrev SmootherPair := Option Smoother × Option Smoother

section Setup

variable {S V W : Type} [Arith V] [Arith W] [Storage V V W]

namespace SolverOptions

/-- The options with the tolerance of level number `level`, if it is one of `count` levels. -/
def withTolerance (o : SolverOptions W) (count : Int) (level : Nat) :
    Except (Fault W) (Options W) :=
  match o.tolerances.value? count level with
  | none => .error .missingLevelValue
  | some tolerance => .ok { o.toOptions with tolerance }

/-- The options of level number `level`: its own tolerance, and the seed advanced by its number.  On
the levels above it the system has drawn a number each, if there is no seed. -/
def levelOptions (o : SolverOptions W) (count : Int) (level : Nat) :
    Except (Fault W) (Options W) := do
  let options ← o.withTolerance count level
  return { options with
    seed := ← o.seed.advanced level, entropy := fun draw => o.entropy (level + draw) }

/-- The smoothers of a level. -/
def smoothers (o : SolverOptions W) : Except (Fault W) SmootherPair := do
  let before ← Smoother.ofDatum o.presmoother
  let after ← Smoother.ofDatum o.postsmoother
  return (before, after)

/-- Is one more level asked for, of at most `count`, below a number of levels?  The last of them has
`size` points, which does not matter after enough levels. -/
def asksForMore (o : SolverOptions W) (count : Int) (levels size : Nat) : Except (Fault W) Bool :=
  if levels < count then o.maxCoarse.isBelow size else .ok false

/-- The greatest number of levels, for an operator with `size` points.  There is at least one point,
and the options of the first level are checked. -/
def prepare (o : SolverOptions W) (size : Nat) : Except (Fault W) Int := do
  let count ← o.tolerances.levelCount o.maxLevels
  if size = 0 then throw .emptyOperator
  let _ ← (← o.withTolerance count 0).check
  return count

/-- Ends a setup.  All names have to be known by then, and the time spent on smoothers may be
printed. -/
def conclude (o : SolverOptions W) : Setup Float (Fault W) Unit := do
  if let some name := o.unknown then throw (.unknownField name)
  let start ← Setup.readClock
  let stop ← Setup.readClock
  if o.report.isTruthy then
    Setup.print (smootherSummary (stop - start) "")

end SolverOptions

/-- Extends a hierarchy as long as more levels are asked for, up to `count` levels and by at most
`limit` levels.  The smoothers are listed from the finest level on. -/
def Hierarchy.descend (o : SolverOptions W) (count : Int) (h : Hierarchy V)
    (smoothers : List SmootherPair) : (limit : Nat) →
    Setup Float (Fault W) (Hierarchy V × List SmootherPair)
  | 0 => return (h, smoothers)
  | limit + 1 => do
    if !(← Setup.ofResult (o.asksForMore count h.count h.last.size)) then
      return (h, smoothers)
    let options ← Setup.ofResult (o.levelOptions count h.upper.length)
    let (extended, h) ← h.extend (← Setup.ofResult options.resolve)
    if !extended then
      return (h, smoothers)
    let pair ← Setup.ofResult o.smoothers
    descend o count h (smoothers ++ [pair]) limit

/-- The hierarchy of an operator and the smoothers of its levels.  Every new level has fewer points
than the one above it, so there are at most as many as the operator has rows. -/
def setUp {X : Type} [Storage S X W] [Floating S V] (source : MatrixSource S)
    (o : SolverOptions W) : Setup Float (Fault W) (Hierarchy V × List SmootherPair) := do
  let A ← source.acceptSquare "A"
  let finest := ((A.matrix.map Floating.toFloating).withoutZeros).sorted
  let count ← Setup.ofResult (o.prepare A.size)
  let h ← Setup.ofResult (Hierarchy.ofOperator finest)
  let result ← h.descend o count [] A.size
  o.conclude
  return result

/-- The setup for an operator that has entries outside of it, which is then the only level. -/
def StoredMatrix.setUp [Floating S V] (A : StoredMatrix S) (o : SolverOptions W) :
    Setup Float (Fault W) (StoredMatrix V) := do
  let A ← Setup.ofResult (A.sorted true)
  let count ← Setup.ofResult (o.prepare A.rowCount)
  if ← Setup.ofResult (o.asksForMore count 1 A.rowCount) then
    let _ ← Setup.ofResult ((← Setup.ofResult (o.levelOptions count 0)).resolve)
    throw .columnOutOfRange
  o.conclude
  return { A with parts := A.parts.map Floating.toFloating }.withoutZeros

end Setup

end Multigrid
