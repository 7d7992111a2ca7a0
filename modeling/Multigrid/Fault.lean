/-!
# Faults and warnings

A fault ends the computation that meets it; a warning is noted and the computation goes on.  Both
are told apart by their cause, and the wording of a cause is a function of it.  Some faults have
no wording of their own.

## Main definitions

* `Fault`, `Fault.message`: the causes of failure and their wording
* `tableFullText`: the wording for a full table
* `Warning`, `Warning.message`: the causes of warnings and their wording
-/

namespace Multigrid

/-- Why a computation failed.  Numbers of the input are of type `R`. -/
inductive Fault (R : Type) where
  /-- The strength tolerance is not above 0 and at most 1. -/
  | toleranceOutOfRange (got : R)
  /-- The interpolation scheme has no such name. -/
  | unknownScheme (shown : String)
  /-- The truncation ratio is not between 0 and 1. -/
  | truncationOutOfRange (got : R)
  /-- The limit on splitting rounds is below 1. -/
  | roundLimitTooSmall
  /-- The configured table capacity is below 1. -/
  | capacityTooSmall
  /-- A configuration has no field of this name. -/
  | unknownField (name : String)
  /-- A field of a configuration cannot be changed. -/
  | frozenField (name : String)
  /-- A table was asked for without any slot. -/
  | emptyTable
  /-- A table has no free slot for a new key; the row it was used for, if any. -/
  | tableFull (capacity : Int) (row : Option Int)
  /-- A key does not fit into a table's 64-bit slots. -/
  | keyOutOfRange (key : Int)
  /-- The influence weights are not one for every row. -/
  | influenceLength (rows given : Nat)
  /-- The counts of a builder and the row pointer given to it disagree. -/
  | pointerMismatch
  /-- A row reaches a number of coarse columns that its range of the row pointer does not hold. -/
  | rowMismatch (row reached : Nat) (reserved : Int)
  /-- A row would be written outside of the reserved slots, or read outside of the given ones. -/
  | slotOutOfRange
  /-- A column lies outside of the matrix. -/
  | columnOutOfRange
  /-- A row pointer decreases, is negative, does not start at zero, has the wrong length or does not
  fit the slots. -/
  | malformedPointer
  /-- Rows that are not in order of columns cannot be sorted, since their pointer decreases. -/
  | unsortable
  /-- A triplet lies outside of the matrix. -/
  | tripletOutside
  /-- Values that belong to the same places are not equally many. -/
  | unequalLengths
  /-- A value is no matrix. -/
  | notConvertible (name : String)
  /-- A matrix is not in compressed form. -/
  | notCompressed
  /-- A matrix is not square. -/
  | notSquare
  /-- A list of values without rows is used as a matrix. -/
  | notTwoDimensional
  /-- A list of values for the levels is empty. -/
  | noLevelValues
  /-- There is no value for a level. -/
  | missingLevelValue
  /-- An operator without rows has no density. -/
  | emptyOperator
  /-- The random generator takes no negative seed. -/
  | negativeSeed
  /-- No smoother has this name. -/
  | unknownSmoother (shown : String)
  /-- A value cannot be the name of a smoother. -/
  | unusableSmoother
  /-- A value is used as a number without being one. -/
  | notANumber
  /-- A text is used as a number and does not read as one. -/
  | unreadableNumber
  /-- A number is beyond the range of its format. -/
  | numberTooLarge
  /-- A list has more places than a word can count. -/
  | uncountable
  /-- A list has more places than there is room for. -/
  | outOfMemory
  /-- There is no element type of this name. -/
  | unknownType (name : String)
  /-- A matrix cannot have entries of the type of this name. -/
  | unsupportedType (name : String)

/-- The wording for a full table, which was used for a row with the text `row`, if any. -/
def tableFullText (capacity : Int) (row : Option String) : String :=
  "hash table with capacity " ++ toString capacity ++ " is full" ++
    (match row with
      | some row => " while processing row " ++ row
      | none => "") ++ "; increase the capacity"

/-- The wording of a fault, with `written` for the numbers of the input. -/
def Fault.message {R : Type} (written : R → String) : Fault R → Option String
  | toleranceOutOfRange got => some ("eps must lie in (0, 1], got " ++ written got)
  | unknownScheme shown => some ("Unrecognized interpolation method " ++ shown ++
      "; expected one of ('direct', 'extpi')")
  | truncationOutOfRange got => some ("trunc must lie in [0, 1], got " ++ written got)
  | roundLimitTooSmall => some "max_iter must be >= 1 or None"
  | capacityTooSmall => some "capacity must be >= 1 or None"
  | emptyTable => some "capacity must be >= 1"
  | tableFull capacity row => some (tableFullText capacity (row.map toString))
  | influenceLength rows given => some ("omega must have shape (" ++ toString rows ++ ",), got (" ++
      toString given ++ ",)")
  | pointerMismatch =>
      some "selected entries per row do not match the destination row pointer"
  | rowMismatch row reached reserved => some ("row " ++ toString row ++ " reaches " ++
      toString reached ++ " coarse columns but P_indptr reserves " ++ toString reserved)
  | notConvertible name => some ("Argument " ++ name ++
      " must have type csr_array, or be convertible to csr_array")
  | notSquare => some "expected square matrix"
  | noLevelValues => some "per-level parameter list must not be empty"
  | unknownSmoother shown => some ("Invalid smoother type: " ++ shown)
  | _ => none

/-- What a computation remarks upon without failing. -/
inductive Warning where
  /-- An argument was converted to compressed rows. -/
  | implicitConversion (name : String)
  /-- The splitting stopped at its limit of rounds with rows left undecided. -/
  | undecidedRows (rounds undecided : Nat)

/-- The wording of a warning. -/
def Warning.message : Warning → String
  | implicitConversion name => "Implicit conversion of " ++ name ++ " to CSR"
  | undecidedRows rounds undecided => "PMIS coarsening did not converge in " ++ toString rounds ++
      " iterations; " ++ toString undecided ++ " rows remain undecided"

end Multigrid
