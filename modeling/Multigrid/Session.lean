import Multigrid.Fault
import Multigrid.Text.Labelled

/-!
# Sessions

The setup of a hierarchy is timed, may remark upon its input and may print.  A session carries
what is needed for that: a clock, given by the sequence of its readings, the time spent under
every label, the warnings and the printed text.  All of it survives a fault.

## Main definitions

* `Session`: the record that is kept
* `Setup`: computations that keep it and may fail
* `Setup.timed`: a computation whose duration is added to a label
* `Setup.warn`, `Setup.print`: remarks and output
-/

namespace Multigrid

/-- Adds a duration to the time under a label. -/
def Labelled.addTime {T : Type} [Add T] [Zero T] (timings : Labelled T) (label : String)
    (duration : T) : Labelled T :=
  timings.insert label ((timings.find? label).getD 0 + duration)

/-- What a computation leaves behind besides its result. -/
structure Session (T : Type) where
  /-- Reading number `k` of the clock. -/
  clock : Nat → T
  /-- How many readings were taken. -/
  readings : Nat := 0
  /-- The time spent under every label. -/
  timings : Labelled T := []
  /-- The warnings, oldest first. -/
  warnings : List Warning := []
  /-- The printed text. -/
  printed : String := ""

/-- A computation that may fail with an `ε` and records itself in a session. -/
abbrev Setup (T ε : Type) := ExceptT ε (StateM (Session T))

namespace Setup

variable {T ε α : Type}

/-- Takes the next reading of the clock. -/
def readClock : Setup T ε T := do
  let session ← getThe (Session T)
  set { session with readings := session.readings + 1 }
  return session.clock session.readings

/-- Runs a computation between two readings of the clock and adds the difference to the time under
`label`, also when the computation fails. -/
def timed [Add T] [Sub T] [Zero T] (label : String) (body : Setup T ε α) : Setup T ε α :=
  ExceptT.mk fun session =>
    let start := session.clock session.readings
    let (result, session) := body.run { session with readings := session.readings + 1 }
    let duration := session.clock session.readings - start
    (result, { session with
      readings := session.readings + 1
      timings := session.timings.addTime label duration })

/-- The time spent under every label so far. -/
def timings : Setup T ε (Labelled T) := return (← getThe (Session T)).timings

/-- Forgets the time spent so far. -/
def restartTimings : Setup T ε Unit :=
  modifyThe (Session T) fun session => { session with timings := [] }

/-- Notes a warning, if there is one. -/
def warn (warning : Option Warning) : Setup T ε Unit :=
  modifyThe (Session T) fun session =>
    { session with warnings := session.warnings ++ warning.toList }

/-- Prints a text. -/
def print (text : String) : Setup T ε Unit :=
  modifyThe (Session T) fun session => { session with printed := session.printed ++ text }

/-- A computation that leaves no record. -/
def ofResult (result : Except ε α) : Setup T ε α := ExceptT.mk (pure result)

end Setup

end Multigrid
