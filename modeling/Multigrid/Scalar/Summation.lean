/-!
# Sums of long lists

The rounding errors of a sum grow more slowly if the list is halved and the sums of the halves are
added.  A short list is added up in eight sums that take turns, which are then added pairwise.

## Main definitions

* `laneSums`, `pairSums`, `blockSum`: the sums of a short list
* `halvedSum`: the sum of a list
-/

namespace Multigrid

variable {V : Type} [Add V] [Zero V]

/-- Eight sums, which take turns to take the next item. -/
def laneSums (xs : List V) : Vector V 8 :=
  xs.zipIdx.foldl (fun sums (x, i) =>
    let lane : Fin 8 := Fin.ofNat 8 i
    sums.set lane (sums.get lane + x)) (.replicate 8 0)

/-- The sums of neighbours that do not overlap. -/
def pairSums : List V → List V
  | x :: y :: rest => (x + y) :: pairSums rest
  | rest => rest

/-- The sum of eight numbers, added pairwise. -/
def laneTotal (sums : Vector V 8) : V :=
  (pairSums (pairSums (pairSums sums.toList))).headD 0

/-- The sum of a short list.  Items that do not fill a turn of the eight sums come last. -/
def blockSum (xs : List V) : V :=
  let whole := xs.length - xs.length % 8
  (xs.drop whole).foldl (· + ·) (laneTotal (laneSums (xs.take whole)))

/-- The sum of a list.  Lists of more than 128 items are halved, up to a multiple of eight. -/
def halvedSum (xs : List V) : V :=
  if _h : xs.length ≤ 128 then blockSum xs
  else
    let half := xs.length / 2 - xs.length / 2 % 8
    halvedSum (xs.take half) + halvedSum (xs.drop half)
termination_by xs.length
decreasing_by
  all_goals simp only [List.length_take, List.length_drop]; omega

end Multigrid
