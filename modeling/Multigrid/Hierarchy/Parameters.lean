import Multigrid.Interpolation.Truncation
import Multigrid.Strength.Influence
import Multigrid.Text.Datum
import Multigrid.Text.Labelled

/-!
# Parameters

The parameters of one level say how strong connections are told from weak ones, how points are split
and interpolated, and what is reported.  Options are parameters as a caller writes them.  They are
checked one after the other, and the first fault counts; they are shown as they were written.

A caller who asks for a random order without a seed leaves the seed to the system.  What the system
draws is not known before, and it differs from run to run, so it is a parameter of the options.

## Main definitions

* `Scheme`: the interpolation schemes
* `Parameters`, `Options`: parameters, and parameters as they are written
* `Options.check`, `Options.resolve`: the checks, and the parameters of checked options
* `Options.ofFields`, `Options.fields`: options and named values
* `PerLevel`, `PerLevel.value?`, `PerLevel.expand`: values that may differ from level to level
-/

namespace Multigrid

/-- How points that are not coarse are interpolated. -/
inductive Scheme where
  /-- From strongly connected coarse points. -/
  | direct
  /-- From coarse points that two strong connections reach. -/
  | extended
  deriving DecidableEq

namespace Scheme

/-- The name of a scheme. -/
def name : Scheme → String
  | direct => "direct"
  | extended => "extpi"

/-- The scheme of a name. -/
def ofName? (name : String) : Option Scheme := [direct, extended].find? (·.name == name)

end Scheme

/-- The scheme that a value names. -/
def Scheme.ofDatum? : Datum → Option Scheme
  | .text name => ofName? name
  | _ => none

/-- The parameters of a level. -/
structure Parameters (W : Type) [OfScientific W] [Zero W] where
  /-- The part of a row's extreme value below which an entry is a strong connection. -/
  tolerance : W := 0.25
  /-- The interpolation scheme. -/
  scheme : Scheme := .extended
  /-- Does a fine neighbour hand on its first coarse point only? -/
  firstOnly : Bool := false
  /-- The part of a row's largest weight below which a weight is dropped. -/
  truncation : W := 0
  /-- The limit on splitting rounds. -/
  maxRounds : Option Int := some 100
  /-- Are points of equal influence ordered at random? -/
  tieBreak : Bool := true
  /-- The words of the seed of the random order. -/
  seed : List UInt32 := [0]
  /-- The capacity of the tables of extended interpolation.  What is wrong with it does not matter
  before a table is made. -/
  capacity : Except (Fault W) (Option Int) := .ok none
  /-- Is a summary printed? -/
  report : Bool := false

/-- The source of the start values of influence weights. -/
def Parameters.influenceStart {W : Type} [OfScientific W] [Zero W] (p : Parameters W) :
    InfluenceStart :=
  if p.tieBreak then .drawn p.seed else .zero

/-- Parameters as a caller writes them: any value stands for a flag, and a limit or a seed may turn
out to be no number.  The entropy is not written; it is what a run finds. -/
structure Options (W : Type) [OfScientific W] [Zero W] where
  /-- The strength tolerance. -/
  tolerance : W := 0.25
  /-- The name of the interpolation scheme. -/
  interpolation : Datum := .text "extpi"
  /-- Does a fine neighbour hand on its first coarse point only? -/
  firstOnly : Datum := .flag false
  /-- The truncation ratio. -/
  truncation : W := 0
  /-- The limit on splitting rounds. -/
  maxRounds : Datum := .integer 100
  /-- Are points of equal influence ordered at random? -/
  tieBreak : Datum := .flag true
  /-- The seed of the random order. -/
  seed : Datum := .integer 0
  /-- The capacity of the tables of extended interpolation. -/
  capacity : Datum := .nothing
  /-- Is a summary printed? -/
  report : Datum := .flag false
  /-- The numbers that the system draws, one after the other, where no seed is written.  They do not
  matter where one is. -/
  entropy : Nat → Nat := fun _ => 0

/-! ## Checks -/

/-- A limit on rounds.  A limit that is no integer is reached after the next full round; one that no
number of rounds reaches is none. -/
def Datum.toRoundLimit {R : Type} : Datum → Except (Fault R) (Option Int)
  | .nothing => .ok none
  | .real x => .ok (if x < 1 then some 0 else ceiling? x)
  | value => return some (← value.toInteger)

/-- A number of slots; nothing leaves the number open. -/
def Datum.toCapacity {R : Type} : Datum → Except (Fault R) (Option Int)
  | .nothing => .ok none
  | value => return some (← value.toSlots)

/-- The words of a seed.  If there is none, the number `drawn` by the system takes its place. -/
def Datum.toSeed {R : Type} (value : Datum) (drawn : Nat := 0) : Except (Fault R) (List UInt32) :=
  match value with
  | .nothing => .ok (Random.seedWords drawn)
  | .list items => return (← items.mapM seedItem).flatten
  | value => seedItem value
where
  /-- The words of an integer that is not negative. -/
  seedItem (value : Datum) : Except (Fault R) (List UInt32) := do
    let k ← value.toInteger
    if k < 0 then throw .negativeSeed
    return Random.seedWords k.toNat

section Checks

variable {W : Type} [Arith W]

/-- Checks a limit that may be absent and is at least one otherwise. -/
def checkLimit (limit : Datum) (fault : Fault W) : Except (Fault W) Unit :=
  match limit with
  | .nothing => .ok ()
  | limit => do if ← limit.isBelowOne then throw fault

/-- Checks options in a fixed order: the tolerance, the scheme, the truncation ratio, the limit on
rounds, and the table capacity.  The scheme is what the checks find out. -/
def Options.check (o : Options W) : Except (Fault W) Scheme := do
  checkTolerance o.tolerance
  let some scheme := Scheme.ofDatum? o.interpolation | throw (.unknownScheme o.interpolation.shown)
  Truncation.checkRatio o.truncation
  checkLimit o.maxRounds .roundLimitTooSmall
  checkLimit o.capacity .capacityTooSmall
  return scheme

/-- The parameters of checked options.  A seed that is not used may be anything, and one that is
missing is the first number that the system draws. -/
def Options.resolve (o : Options W) : Except (Fault W) (Parameters W) := do
  let scheme ← o.check
  let maxRounds ← o.maxRounds.toRoundLimit
  let tieBreak := o.tieBreak.isTruthy
  let seed ← if tieBreak then o.seed.toSeed (o.entropy 0) else pure []
  return {
    tolerance := o.tolerance, scheme, firstOnly := o.firstOnly.isTruthy
    truncation := o.truncation, maxRounds, tieBreak, seed, capacity := o.capacity.toCapacity
    report := o.report.isTruthy }

end Checks

/-! ## Named values -/

namespace Options

/-- The options under their names. -/
def fields (o : Options Float) : Labelled Datum :=
  [("eps", .real o.tolerance), ("interpolation", o.interpolation), ("FF1", o.firstOnly),
    ("trunc", .real o.truncation), ("max_iter", o.maxRounds), ("random_tiebreak", o.tieBreak),
    ("seed", o.seed), ("capacity", o.capacity), ("print_info", o.report)]

/-- Sets the option of a name, unless it is one of the two that are numbers. -/
def setField (o : Options Float) (field : String × Datum) :
    Except (Fault Float) (Options Float) :=
  let (name, value) := field
  match name with
  | "eps" | "trunc" => .ok o
  | "interpolation" => .ok { o with interpolation := value }
  | "FF1" => .ok { o with firstOnly := value }
  | "max_iter" => .ok { o with maxRounds := value }
  | "random_tiebreak" => .ok { o with tieBreak := value }
  | "seed" => .ok { o with seed := value }
  | "capacity" => .ok { o with capacity := value }
  | "print_info" => .ok { o with report := value }
  | _ => .error (.unknownField name)

/-- The number under a name, if there is a value. -/
def number (fields : Labelled Datum) (name : String) (absent : Float) :
    Except (Fault Float) Float :=
  match fields.find? name with
  | some value => value.toNumber
  | none => .ok absent

/-- The options with the given fields.  The two numbers are read before all names are known to be
names of options. -/
def ofFields (fields : Labelled Datum) (entropy : Nat → Nat := fun _ => 0) :
    Except (Fault Float) (Options Float) := do
  let tolerance ← number fields "eps" 0.25
  let truncation ← number fields "trunc" 0
  fields.foldlM setField { tolerance, truncation, entropy }

/-- Why options that passed the checks do not take a value under a name: they do not change, and
there are no others. -/
def assignmentFault (o : Options Float) (name : String) : Fault Float :=
  if (o.fields.find? name).isSome then .frozenField name else .unknownField name

end Options

/-! ## Values for every level -/

/-- A value for all levels, or one for each of them. -/
inductive PerLevel (α : Type) where
  /-- The same value on every level. -/
  | same (value : α)
  /-- One value after the other. -/
  | each (values : List α)

/-- The items of a list up to a position, which is counted from the end if it is negative. -/
def takeUpTo {α : Type} (values : List α) (position : Int) : List α :=
  values.take (if position < 0 then position + values.length else position).toNat

/-- The values of the first `count` levels; a list that is too short goes on with its last value. -/
def PerLevel.expand {α R : Type} (count : Int) : PerLevel α → Except (Fault R) (List α)
  | .same value => .ok (List.replicate count.toNat value)
  | .each [] => .error .noLevelValues
  | .each values =>
    let values := takeUpTo values count
    match values.getLast? with
    | none => .error .missingLevelValue
    | some last => .ok (values ++ List.replicate (count - values.length).toNat last)

/-- The value of level number `level`, if it is one of the first `count` levels.  This is what
`expand` has in that place. -/
def PerLevel.value? {α : Type} (count : Int) (level : Nat) : PerLevel α → Option α
  | .same value => if level < count then some value else none
  | .each values =>
    let values := takeUpTo values count
    if level < values.length then values[level]?
    else if level < count then values.getLast?
    else none

/-- The number of levels that a value stands for.  An empty list of values is found out first; then
there has to be a value for the first level, and room for all that `expand` adds. -/
def PerLevel.levelCount {α R : Type} (count : Datum) (values : PerLevel α) :
    Except (Fault R) Int := do
  if let .each [] := values then throw .noLevelValues
  let count ← count.toInteger
  match values with
  | .same _ => checkRoom count
  | .each values =>
    let given := (takeUpTo values count).length
    if given = 0 then throw .missingLevelValue
    checkRoom (count - given)
  return count

end Multigrid
