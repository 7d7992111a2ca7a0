import Multigrid.Interpolation.Direct
import Multigrid.Sparse.Compressed
import Multigrid.Table.Probing

/-!
# Extended interpolation

A point that is not coarse is interpolated from every coarse point it reaches in one strong
connection, or in two by way of a point that is not coarse itself.  The value of a strong fine
neighbour `k` is handed on to the reached points and to the point itself, in proportion to those
entries of row `k` whose sign differs from the sign of its diagonal.  Weak entries that are not
reached are added to the diagonal.

Every point gathers its weights in a table of its own, whose keys are the reached points.  The
keys are entered before any value is added, once for the length of a row and once more for its
weights.

As for direct interpolation, prolongators with fewer than `2 ^ 31` entries are meant, whose row
pointer fits into signed words of 32 bits.

## Main definitions

* `Extended.reached`: the reached points of a row, with repetitions
* `Extended.reachBounds`, `Extended.tableCapacity`: how large a table has to be
* `RowPlan`, `Extended.plan`: the rows of the prolongator, as far as they can be built
* `Extended.rowSizes`: how many entries every row of the prolongator has
* `Extended.gather`: the numerators of a row and the denominator
* `Extended.row`: a row of the prolongator
* `Extended.fill`: the prolongator, written into reserved slots
-/

namespace Multigrid

/-- Rows that are built one after the other, up to the first one for which something is missing. -/
structure RowPlan (n : Nat) where
  /-- The rows that can be built. -/
  rows : List (Fin n)
  /-- Are these all rows? -/
  isComplete : Bool

namespace RowPlan

variable {R : Type} {n : Nat}

/-- All of `n` rows. -/
def full : RowPlan n := ⟨List.finRange n, true⟩

/-- Nothing is missing for any row. -/
def check (plan : RowPlan n) : Except (Fault R) Unit :=
  if plan.isComplete then .ok () else .error .slotOutOfRange

end RowPlan

namespace Extended

variable {α V W R : Type} {n : Nat}

/-! ## Reached points -/

section Reach

variable (G : StrengthGraph α n) (labels : Vector Label n) (firstOnly : Bool)

/-- The coarse points strongly connected to point `k`; with `firstOnly` only the one stored first.
-/
def handedOn (k : Fin n) : List (Fin n) :=
  let points := (strongCoarse G labels k).map (·.column)
  if firstOnly then points.take 1 else points

/-- The coarse points that strong connections reach, in the order in which they are met. -/
def reachedBy (connections : List (Connection α n)) : List (Fin n) :=
  connections.flatMap fun c =>
    if labels.get c.column = .coarse then [c.column] else handedOn G labels firstOnly c.column

/-- The coarse points that point `i` reaches. -/
def reached (i : Fin n) : List (Fin n) :=
  reachedBy G labels firstOnly ((G.strongRow i).filter (·.column ≠ i))

/-- A bound on the length of every row, which counts the reached points with repetitions. -/
def reachBounds : Vector Nat n :=
  Vector.ofFn fun i =>
    if labels.get i = .coarse then 1
    else (reachedBy G labels firstOnly (G.strongRow i)).length

/-- The smallest power of two that is at least 32 and above all bounds. -/
def tableCapacity (bounds : List Int) : Nat :=
  let most := (bounds.foldl max 0).toNat
  max 32 (1 <<< (most.log2 + 1))

/-- The capacity that a strength graph asks for, unless one is given. -/
def chosenCapacity : (capacity : Option Int) → Int
  | some capacity => capacity
  | none => tableCapacity ((reachBounds G labels firstOnly).toList.map Int.ofNat)

/-- The table of point `i`, with all reached points entered. -/
def reachTable (capacity : Int) (blank : V) (i : Fin n) : Except (Fault R) (ProbingTable V) := do
  let table ← ProbingTable.create capacity (some i) blank
  table.insertAll ((reached G labels firstOnly i).map fun k => k.val)

/-- The length of row `i` of the prolongator. -/
def rowSize (capacity : Int) (i : Fin n) : Except (Fault R) Nat :=
  if labels.get i = .coarse then .ok 1
  else return (← reachTable G labels firstOnly capacity () i).size

/-- The length of every row of the prolongator that is planned. -/
def rowSizes (capacity : Option Int) (plan : RowPlan n) : Except (Fault R) (List Nat) := do
  let capacity := chosenCapacity G labels firstOnly capacity
  let sizes ← plan.rows.mapM (rowSize G labels firstOnly capacity)
  plan.check
  return sizes

end Reach

/-! ## Rows that can be built -/

section Plan

variable (G : StrengthGraph α n) (labels : Vector Label n) (hasRow hasDiagonal : Fin n → Bool)

/-- Is there everything that point `i` is interpolated from?  A coarse point needs nothing.  Any
other one needs its row and its diagonal, the rows of the points that it is strongly connected to,
unless they are coarse, and the diagonal of those that are fine. -/
def isBuildable (i : Fin n) : Bool :=
  labels.get i = .coarse || hasRow i && hasDiagonal i && (G.strongRow i).all fun c =>
    c.column = i || labels.get c.column = .coarse ||
      hasRow c.column && (labels.get c.column ≠ .fine || hasDiagonal c.column)

/-- The first `count` rows, as far as they can be built. -/
def plan (count : Nat) : RowPlan n :=
  let rows := (List.finRange n).take count
  let isBuildable := isBuildable G labels hasRow hasDiagonal
  ⟨rows.takeWhile isBuildable, rows.all isBuildable⟩

end Plan

/-! ## Weights -/

/-- What a row has gathered so far. -/
structure Gathered (V W : Type) where
  /-- The numerators of the reached points. -/
  table : ProbingTable V
  /-- What fine neighbours handed back to the point itself. -/
  returned : W
  /-- The weak entries that are added to the diagonal. -/
  lumped : W

section Weights

variable [Arith V] [Arith W] [Storage V V W] (G : StrengthGraph V n) (labels : Vector Label n)
  (diagonal : Vector W n)

/-- Is a value not below zero? -/
def isNonnegative (x : W) : Bool := 0 ≤ x

/-- The sum of the entries of row `k` through which point `i` is interpolated: those in column `i`
or in the column of a point of `table`, with a sign other than the one of the diagonal of row `i`.
-/
def sharedSum (table : ProbingTable V) (i k : Fin n) : W :=
  (G.row k).foldl (fun sum c =>
    if (c.column = i ∨ labels.get c.column = .coarse ∧ table.contains c.column) ∧
        isNonnegative (diagonal.get i) ≠ isNonnegative (Storage.widen c.value) then
      sum + Storage.widen c.value
    else sum) 0

/-- The entry of row `k` in column `i`, the last one if there are several. -/
def backEntry (i k : Fin n) : W :=
  (((G.row k).filter (·.column = i)).getLast?.map fun c => Storage.widen c.value).getD 0

/-- Adds `x` to the value of point `k`, if it is in the table. -/
def deposit (table : ProbingTable V) (k : Fin n) (x : W) : ProbingTable V :=
  (table.add? k (Storage.narrow x)).getD table

/-- Hands the value `x` of the fine neighbour `k` on to the points of the table and back to point
`i`. -/
def distribute (i k : Fin n) (x : W) (g : Gathered V W) : Gathered V W :=
  let sum := sharedSum G labels diagonal g.table i k
  let ratio := if divisionGuard < Arith.magnitude sum then x / sum else 0
  let opposes (y : W) : Bool := isNonnegative (diagonal.get k) ≠ isNonnegative y
  let back := backEntry G i k
  { g with
    table := ((G.row k).filter fun c =>
        labels.get c.column = .coarse && opposes (Storage.widen c.value)).foldl
      (fun table c => deposit table c.column (Storage.widen c.value * ratio)) g.table
    returned := if opposes back then g.returned + back * ratio else g.returned }

/-- Takes the off-diagonal entry `c` of row `i` into account. -/
def gatherEntry (i : Fin n) (g : Gathered V W) (c : Connection V n) : Gathered V W :=
  let x : W := Storage.widen c.value
  let g := if c.strong ∧ labels.get c.column = .fine then
      distribute G labels diagonal i c.column x g
    else g
  let deposited :=
    if labels.get c.column = .coarse then g.table.add? c.column (Storage.narrow x) else none
  match deposited with
  | some table => { g with table }
  | none => if c.strong then g else { g with lumped := g.lumped + x }

/-- Takes all off-diagonal entries of row `i` into account. -/
def gather (i : Fin n) (table : ProbingTable V) : Gathered V W :=
  ((G.row i).filter (·.column ≠ i)).foldl (gatherEntry G labels diagonal i) ⟨table, 0, 0⟩

/-- The factor from numerators to weights, for a row with this diagonal entry. -/
def Gathered.factor (g : Gathered V W) (diagonal : W) : W :=
  let denominator := g.lumped + g.returned + diagonal
  if divisionGuard < Arith.magnitude denominator then -1 / denominator else 0

/-- The weights of row `i` in ascending order of columns, which are numbered like the rows.  The
table holds the reached points. -/
def weights (i : Fin n) (table : ProbingTable V) : List (Entry n V) :=
  let g := gather G labels diagonal i table
  let factor : V := Storage.narrow (g.factor (diagonal.get i))
  g.table.sortedEntries.filterMap fun (k, x) =>
    (columnOf? n k).map fun column => ⟨column, factor * x⟩

end Weights

/-! ## The prolongator -/

section Fill

variable [Arith V] [Arith W] [Storage V V W] (G : StrengthGraph V n) (labels : Vector Label n)
  (diagonal : Vector W n) (firstOnly : Bool)

/-- Row `i` of the prolongator, in columns numbered like the rows. -/
def row (capacity : Int) (i : Fin n) : Except (Fault R) (List (Entry n V)) :=
  if labels.get i = .coarse then .ok [⟨i, 1⟩]
  else return weights G labels diagonal i (← reachTable G labels firstOnly capacity 0 i)

/-- Writes row `i` into its slots.  The slots of a row that is not coarse have to be as many as its
entries. -/
def fillRow (capacity : Int) (buffer : RowBuffer V n) (i : Fin n) :
    Except (Fault R) (RowBuffer V n) := do
  let some start := buffer.pointer[i.val]? | throw .slotOutOfRange
  let entries ← row G labels diagonal firstOnly capacity i
  if labels.get i ≠ .coarse then
    let some stop := buffer.pointer[i.val + 1]? | throw .slotOutOfRange
    if (entries.length : Int) ≠ stop - start then
      throw (.rowMismatch i entries.length (stop - start))
  buffer.writeAll (entries.zipIdx.map fun (entry, t) => (start + (t : Int), entry))

/-- Writes the planned rows of the prolongator into the slots of a row pointer.  The columns are
numbered like the rows; those from `width` on are refused. -/
def fill (capacity : Option Int) (plan : RowPlan n) (pointer : List Int) (width : Nat) :
    Except (Fault R) (RowBuffer V n) := do
  let capacity := chosenCapacity G labels firstOnly capacity
  let buffer ← RowBuffer.reserve pointer width
  let buffer ← plan.rows.foldlM (fillRow G labels diagonal firstOnly capacity) buffer
  plan.check
  buffer.finish plan.rows.length

/-- The prolongator of a square operator, with columns numbered like the rows. -/
def prolongator (capacity : Option Int) : Except (Fault R) (RowBuffer V n) := do
  let sizes ← rowSizes G labels firstOnly capacity .full
  fill G labels diagonal firstOnly capacity .full (runningTotals (sizes.map Int.ofNat)) n

end Fill

end Extended

end Multigrid
