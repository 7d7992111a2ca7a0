import Multigrid.Fault

/-!
# Coarse and fine points

A splitting labels every point of a level.  Coarse points are carried to the next level, fine points
are interpolated from them, and a point may still be undecided.  Labels read from outside may hold
further codes, which count as none of the three.

## Main definitions

* `Label`, `Label.ofCode`, `Label.code`: the labels and their numeric codes
* `coarseCount`, `fineCount`: the numbers of coarse and of fine points
* `coarseFlags`: a flag for each coarse point
* `Splitting`: labels together with the history that led to them
* `Splitting.indicator`: one for coarse points, zero for all others
* `Splitting.warning`: the remark on points that were left undecided
-/

namespace Multigrid

/-- The label of a point. -/
inductive Label where
  /-- Not yet classified. -/
  | undecided
  /-- Kept on the next level. -/
  | coarse
  /-- Interpolated from coarse points. -/
  | fine
  /-- A code without a meaning. -/
  | other (code : Int)
  deriving DecidableEq

namespace Label

/-- The label of a code: 0, 1 and 2 stand for undecided, coarse and fine. -/
def ofCode (code : Int) : Label :=
  if code = 0 then undecided else if code = 1 then coarse else if code = 2 then fine else other code

/-- The code of a label. -/
def code : Label → Int
  | undecided => 0
  | coarse => 1
  | fine => 2
  | other code => code

theorem ofCode_code (c : Int) : (ofCode c).code = c := by
  grind [ofCode, code]

end Label

/-- The number of coarse points. -/
def coarseCount {n : Nat} (labels : Vector Label n) : Nat := labels.toList.count .coarse

/-- The number of fine points. -/
def fineCount {n : Nat} (labels : Vector Label n) : Nat := labels.toList.count .fine

/-- One for a coarse point, zero for any other. -/
def coarseFlags {n : Nat} (labels : Vector Label n) : Vector Nat n :=
  labels.map fun l => if l = .coarse then 1 else 0

/-- Labels for `n` points, with the number of rounds that produced them. -/
structure Splitting (n : Nat) where
  /-- The label of every point. -/
  labels : Vector Label n
  /-- The number of rounds executed. -/
  rounds : Nat
  /-- Was every point decided? -/
  converged : Bool

namespace Splitting

variable {n : Nat}

/-- The number of coarse points. -/
def coarseCount (s : Splitting n) : Nat := Multigrid.coarseCount s.labels

/-- The number of fine points. -/
def fineCount (s : Splitting n) : Nat := Multigrid.fineCount s.labels

/-- One for a coarse point, zero for any other. -/
def indicator (s : Splitting n) : Vector Nat n := coarseFlags s.labels

/-- The remark on a splitting that left points undecided. -/
def warning (s : Splitting n) : Option Warning :=
  if s.converged then none else some (.undecidedRows s.rounds (s.labels.toList.count .undecided))

end Splitting

end Multigrid
