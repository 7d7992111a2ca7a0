import Multigrid.Scalar.Storage
import Multigrid.Sparse.RowBuffer
import Multigrid.Splitting.Label
import Multigrid.Strength.Graph

/-!
# Direct interpolation

A fine point is interpolated from the coarse points that it is strongly connected to.  A strong
coarse entry inside of a band around zero is dropped, where the band of a row reaches from a fifth
of its least strong coarse value to a fifth of its greatest one, both taken together with zero.
The weights of the entries that are kept make up for the ones that are not, separately for
negative and for non-negative values, so that a row whose sum is zero interpolates constants.  A
positive part without any strong coarse entry is added to the diagonal instead.

Every division is guarded: without a denominator the correction is one and the weights are zero.

The row pointer of a prolongator is stored in signed words of 32 bits.  Its totals are not wrapped
here: prolongators with fewer than `2 ^ 31` entries are meant.

## Main definitions

* `strongCoarse`: the strong coarse entries of a row
* `Band`, `Direct.band`: the band of a row
* `Direct.rowSizes`: how many entries every row of the prolongator has
* `Mass`, `Mass.factor`: the sums of one sign and the factor of the weights of that sign
* `Direct.row`: a row of the prolongator
* `Direct.fill`: the prolongator, written into reserved slots
-/

namespace Multigrid

variable {α V W R : Type} {n : Nat}

/-- The strong entries of row `i` in columns of coarse points. -/
def strongCoarse (G : StrengthGraph α n) (labels : Vector Label n) (i : Fin n) :
    List (Connection α n) :=
  (G.strongRow i).filter (labels.get ·.column = .coarse)

/-- An interval of values around zero. -/
structure Band (V : Type) where
  /-- The lower end. -/
  lower : V
  /-- The upper end. -/
  upper : V

namespace Band

variable [Arith V] (band : Band V)

/-- Does a value lie strictly between the ends? -/
def isInside (x : V) : Bool := band.lower < x ∧ x < band.upper

/-- Does a value lie at an end or beyond one? -/
def isOutside (x : V) : Bool := x ≤ band.lower ∨ band.upper ≤ x

end Band

/-- The off-diagonal sums of one sign in a row. -/
structure Mass (V : Type) where
  /-- The sum of all entries. -/
  total : V
  /-- The sum of the strong coarse entries. -/
  carried : V
  /-- The sum of the strong coarse entries on the inner side of the band. -/
  dropped : V

namespace Mass

variable [Arith V] (mass : Mass V)

/-- What makes up for the strong coarse entries that are dropped. -/
def correction : V :=
  if divisionGuard < Arith.magnitude (mass.carried - mass.dropped) then
    mass.carried / (mass.carried - mass.dropped)
  else 1

/-- The factor from entries to weights. -/
def factor (diagonal : V) : V :=
  if divisionGuard < Arith.magnitude diagonal ∧ divisionGuard < Arith.magnitude mass.carried then
    (-mass.correction) * mass.total / (diagonal * mass.carried)
  else 0

end Mass

namespace Direct

section Band

variable [Arith V] (G : StrengthGraph V n) (labels : Vector Label n)

/-- The part of an extreme strong coarse value up to which entries are dropped. -/
def bandRatio : V := 0.2

/-- The band of row `i`; a coarse row has none. -/
def band (i : Fin n) : Band V :=
  if labels.get i = .coarse then
    ⟨0, 0⟩
  else
    let values := (strongCoarse G labels i).map (·.value)
    ⟨values.foldl Arith.least 0 * bandRatio, values.foldl Arith.greatest 0 * bandRatio⟩

/-- The bands of all rows. -/
def bands : Vector (Band V) n := Vector.ofFn (band G labels)

/-- The length of every row of the prolongator: one for a coarse row, the number of strong coarse
entries outside of the band for any other. -/
def rowSizes : Vector Nat n :=
  Vector.ofFn fun i =>
    if labels.get i = .coarse then 1
    else
      let band := band G labels i
      (strongCoarse G labels i).countP fun c => band.isOutside c.value

end Band

section Weights

variable [Arith V] [Arith W] [Storage V V W] (G : StrengthGraph V n) (labels : Vector Label n)

/-- The sum of values, taken by an accumulator and rounded once. -/
def roundedSum (values : List V) : V :=
  Storage.narrow (values.foldl (fun (sum : W) x => sum + Storage.widen x) 0)

/-- The sums over the off-diagonal entries of row `i` that have one sign. -/
def mass (i : Fin n) (hasSign isInner : V → Bool) : Mass V :=
  let all := (G.row i).filter fun c => c.column ≠ i && hasSign c.value
  let carried := all.filter fun c => c.strong && labels.get c.column = .coarse
  let dropped := carried.filter fun c => isInner c.value
  ⟨roundedSum (all.map (·.value)), roundedSum (carried.map (·.value)),
    roundedSum (dropped.map (·.value))⟩

/-- The factors of negative and of non-negative entries in row `i`. -/
def factors (band : Band V) (i : Fin n) : V × V :=
  let negative := mass G labels i (· < 0) (band.lower < ·)
  let positive := mass G labels i (0 ≤ ·) (· < band.upper)
  let stored := (G.operator.lastDiagonal? i).getD 0
  let diagonal :=
    if 0 < positive.total ∧ Arith.magnitude positive.carried < divisionGuard then
      stored + positive.total
    else stored
  (negative.factor diagonal, positive.factor diagonal)

/-- Is an entry of row `i` kept? -/
def isKept (band : Band V) (i : Fin n) (c : Connection V n) : Bool :=
  c.strong && labels.get c.column = .coarse && labels.get i ≠ .coarse && !band.isInside c.value

/-- The weights of row `i`, in columns numbered like the rows. -/
def weights (band : Band V) (i : Fin n) : List (Entry n V) :=
  let (negative, positive) := factors G labels band i
  ((G.row i).filter (isKept labels band i)).map fun c =>
    ⟨c.column, (if c.value < 0 then negative else positive) * c.value⟩

/-- Row `i` of the prolongator, in columns numbered like the rows: the unit row for a coarse point,
the weights for any other. -/
def row (band : Band V) (i : Fin n) : List (Entry n V) :=
  if labels.get i = .coarse then [⟨i, 1⟩] else weights G labels band i

/-- The bands with the given lower and upper ends; ends that are not given are those of the rows. -/
def chosenBands (lower upper : Option (Vector V n)) : Vector (Band V) n :=
  let own := bands G labels
  (lower.getD (own.map Band.lower)).zipWith Band.mk (upper.getD (own.map Band.upper))

/-- Writes the prolongator into the slots of a row pointer, which has to fit the number of `stored`
rows: all of them, unless the operator is stored by columns.  The ends of the bands may be given,
and the columns are numbered like the rows; those from `width` on are refused. -/
def fill (stored : Nat) (lower upper : Option (Vector V n)) (pointer : List Int) (width : Nat) :
    Except (Fault R) (RowBuffer V n) := do
  let bands := chosenBands G labels lower upper
  let buffer ← RowBuffer.reserve pointer width
  let counts := (List.finRange n).map fun i => (G.row i).countP (isKept labels (bands.get i) i)
  let reserved := labels.toList.map fun label => if label = .coarse then 1 else 0
  let slots ← compactedSlots (leadingCounts stored counts) pointer reserved
  let buffer ← buffer.writeAll
    (slots.zip ((List.finRange n).flatMap fun i => weights G labels (bands.get i) i))
  let buffer ← buffer.writeAll
    (((List.finRange n).filter (labels.get · = .coarse)).map fun (i : Fin n) =>
      (pointer.getD i 0, ⟨i, 1⟩))
  buffer.finish n

/-- The prolongator for a number of stored rows, with columns numbered like the rows. -/
def prolongator (stored : Nat) : Except (Fault R) (RowBuffer V n) :=
  let own := bands G labels
  fill G labels stored (some (own.map Band.lower)) (some (own.map Band.upper))
    (runningTotals ((rowSizes G labels).toList.map Int.ofNat)) n

end Weights

end Direct

end Multigrid
