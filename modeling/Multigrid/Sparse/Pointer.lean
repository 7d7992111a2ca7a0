import Multigrid.Fault

/-!
# Row pointers

A row pointer of `n` rows is a list of `n + 1` positions; row `r` occupies the slots from position
`r` up to position `r + 1`.  Builders count the entries of every row first, turn the counts into a
row pointer, and then write every row into its slots.

Row pointers are stored in signed words of 32 bits.  Their totals are not wrapped here: what is
meant are matrices with fewer than `2 ^ 31` entries, for which there is nothing to wrap.  Only the
differences of a pointer that somebody else has made are wrapped, since any pointer may be given.

## Main definitions

* `runningTotals`: the row pointer of a list of counts
* `gaps`: the counts of a row pointer
* `slotRows`: the row of every slot
* `consecutiveNumbers`: consecutive numbers for flagged rows
* `compactedSlots`: the slots of the entries that are kept when rows are compacted
* `maskedSlots`: the same for a mask over all slots
* `spread`, `filled`: values for a number of places
-/

namespace Multigrid

variable {α R : Type}

/-- The running totals of a list, from zero up to the sum of all.  Those of a row pointer are meant
to stay below `2 ^ 31`. -/
def runningTotals [Add α] [OfNat α 0] (counts : List α) : List α := counts.scanl (· + ·) 0

/-- The differences of neighbours. -/
def gaps (pointer : List Int) : List Int := List.zipWith (fun a b => b - a) pointer pointer.tail

/-- The differences of neighbours in words of 32 bits, which wrap. -/
def wordGaps (pointer : List Int) : List Int := (gaps pointer).map (·.bmod 4294967296)

/-- The row of every slot of a row pointer, which must not decrease. -/
def slotRows (pointer : List Int) : Except (Fault R) (List Nat) :=
  let counts := wordGaps pointer
  if counts.all (0 ≤ ·) then
    .ok (counts.zipIdx.flatMap fun (count, r) => List.replicate count.toNat r)
  else
    .error .malformedPointer

/-- Numbers the flagged rows consecutively: for every row the number of flags before it, and the
number of all flags. -/
def consecutiveNumbers [Add α] [OfNat α 0] (flags : List α) : List α × α :=
  let scan := runningTotals flags
  (scan.dropLast, scan.getLastD 0)

/-- The slot of a position among `size` slots.  Positions below zero count from the end. -/
def slotAt? (size : Nat) (position : Int) : Option Nat :=
  let slot := if position < 0 then position + size else position
  if 0 ≤ slot ∧ slot < size then some slot.toNat else none

/-- Cuts a list into consecutive pieces of given lengths. -/
def pieces : List Nat → List α → List (List α)
  | [], _ => []
  | k :: ks, xs => xs.take k :: pieces ks (xs.drop k)

/-- One value for each of `n` places, where a single value serves all of them. -/
def spread? (n : Nat) (values : List α) : Option (Vector α n) :=
  if h : values.toArray.size = n then some ⟨values.toArray, h⟩
  else match values with
    | [value] => some (.replicate n value)
    | _ => none

/-- One value for each of `n` places.  Several values are too many for a single place. -/
def spread (n : Nat) (values : List α) : Except (Fault R) (Vector α n) :=
  match spread? n values with
  | some values => .ok values
  | none => .error (if n = 1 then .slotOutOfRange else .unequalLengths)

/-- The items of a list for `n` places, with `blank` for the ones that are missing. -/
def filled (n : Nat) (blank : α) (items : List α) : Vector α n :=
  let items := items.toArray
  .ofFn fun i => items.getD i blank

/-- The same for a list that has an item for every place where one is needed. -/
def filledWhere {n : Nat} (isNeeded : Fin n → Bool) (blank : α) (items : List α) :
    Except (Fault R) (Vector α n) :=
  if (List.finRange n).any fun i => isNeeded i && items.length ≤ i then .error .slotOutOfRange
  else .ok (filled n blank items)

/-- The sums of two lists, place by place.  A single value serves all places of the other list. -/
def sumEach (xs ys : List Int) : Except (Fault R) (List Int) :=
  if xs.length = ys.length then .ok (List.zipWith (· + ·) xs ys)
  else match xs, ys with
    | [x], ys => .ok (ys.map (x + ·))
    | xs, [y] => .ok (xs.map (· + y))
    | _, _ => .error .unequalLengths

/-- The first `size` of some counts.  Counts that are missing are zero. -/
def leadingCounts (size : Nat) (counts : List Nat) : List Nat :=
  let counts := counts.toArray
  (List.range size).map fun r => counts.getD r 0

/-- The slots of the entries that rows keep, in storage order, when every row keeps as many as
`counts` says.  The first `reserved` slots of a row are left to the caller.  Every row has to fill
its range of the destination pointer `out` exactly. -/
def compactedSlots (counts : List Nat) (out reserved : List Int) :
    Except (Fault R) (List Int) := do
  let lengths ← sumEach (counts.map Int.ofNat) reserved
  if lengths ≠ gaps out then throw .pointerMismatch
  return ((out.zip reserved).zip counts).flatMap fun ((start, skip), count) =>
    (List.range count).map fun (t : Nat) => start + skip + t

/-- The item of a list at a position; positions below zero count from the end. -/
def itemAtPosition (items : Array α) (position : Int) : Except (Fault R) α :=
  match (slotAt? items.size position).bind (items[·]?) with
  | some item => .ok item
  | none => .error .slotOutOfRange

/-- The slots of the entries that `mask` selects from the slots of `pointer`, when every row keeps
only those: the slot of an entry follows the reserved slots of its row and the slots of the entries
that are selected before it.  The pointer may end before the mask does, and positions below zero
count from the end of the mask; a selected entry has to belong to a row.  If no reserved slots are
given, there are none. -/
def maskedSlots (mask : List Bool) (pointer out : List Int) (reserved : Option (List Int)) :
    Except (Fault R) (List Int) := do
  if pointer.isEmpty ∧ reserved.isNone then throw .malformedPointer
  let reserved := reserved.getD (List.replicate (pointer.length - 1) 0)
  let before := runningTotals (mask.map fun b => if b then (1 : Int) else 0)
  let starts ← if pointer.length < 2 then pure [] else
    pointer.mapM (itemAtPosition before.toArray)
  let lengths ← sumEach (gaps starts) reserved
  if lengths ≠ wordGaps out then throw .pointerMismatch
  let rows := (← slotRows pointer).toArray
  let firsts := ((out.zip reserved).zip starts).map fun ((position, skip), start) =>
    position + skip - start
  let firsts := firsts.toArray
  let selected := ((mask.zip before).zipIdx).filter (·.1.1)
  selected.mapM fun ((_, count), slot) => do
    match rows[slot]?.bind (firsts[·]?) with
    | some first => return first + count
    | none => throw .slotOutOfRange

end Multigrid
