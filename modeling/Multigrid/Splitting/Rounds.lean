import Multigrid.Strength.Graph
import Multigrid.Splitting.Label

/-!
# Splitting by rounds

All points start undecided.  A round promotes the undecided points that influence another point,
withdraws the lighter end of every strong connection between two points promoted in this round, and
closes the neighbourhood of the coarse points that remain.  Rounds repeat until every point is
decided or a limit is reached.

The heaviest of the undecided points is decided in every round, so without a limit at most as many
rounds as there are points are needed.

## Main definitions

* `Splitting.promote`, `Splitting.withdraw`, `Splitting.close`: the three passes of a round
* `Splitting.playRound`: one round
* `StrengthGraph.split`: the splitting of a strength graph with influence weights
-/

namespace Multigrid

variable {α Ω : Type} {n : Nat}

namespace Splitting

/-- Is the undecided point of this weight an influence on another point? -/
def isPromoted [Arith Ω] (label : Label) (weight : Ω) : Bool :=
  label = .undecided ∧ 1 ≤ weight

/-- The points that are promoted: the undecided ones of weight at least one. -/
def promoted [Arith Ω] (weights : Vector Ω n) (labels : Vector Label n) : Vector Bool n :=
  labels.zipWith isPromoted weights

/-- Promoted points become coarse, other undecided points become fine. -/
def promote [Arith Ω] (weights : Vector Ω n) (labels : Vector Label n) : Vector Label n :=
  labels.zipWith (fun label weight =>
    if isPromoted label weight then .coarse
    else if label = .undecided then .fine
    else label) weights

/-- Withdraws the lighter end of one connection, if both ends are new. -/
def withdrawEnd [Arith Ω] (weights : Vector Ω n) (new : Vector Bool n) (labels : Vector Label n)
    (ends : Fin n × Fin n) : Vector Label n :=
  if new.get ends.1 && new.get ends.2 then
    if weights.get ends.2 < weights.get ends.1 then labels.set ends.2 .undecided
    else if weights.get ends.1 < weights.get ends.2 then labels.set ends.1 .undecided
    else labels
  else labels

/-- Of two new points that are strongly connected, the lighter one becomes undecided again.  Ends of
equal weight stay. -/
def withdraw [Arith Ω] (G : StrengthGraph α n) (weights : Vector Ω n) (new : Vector Bool n)
    (labels : Vector Label n) : Vector Label n :=
  G.strongPairs.foldl (withdrawEnd weights new) labels

/-- Undecided points with a strong connection to a coarse point become fine. -/
def close (G : StrengthGraph α n) (labels : Vector Label n) : Vector Label n :=
  Vector.ofFn fun i =>
    if labels.get i = .undecided ∧ (G.strongRow i).any (labels.get ·.column = .coarse) then .fine
    else labels.get i

/-- Is any point undecided? -/
def hasUndecided (labels : Vector Label n) : Bool := labels.any (· = .undecided)

/-- One round of promotion, withdrawal and closure. -/
def playRound [Arith Ω] (G : StrengthGraph α n) (weights : Vector Ω n) (labels : Vector Label n) :
    Vector Label n :=
  close G (withdraw G weights (promoted weights labels) (promote weights labels))

end Splitting

/-- Checks a limit on rounds, which is at least one. -/
def checkRounds {R : Type} (limit : Option Int) : Except (Fault R) Unit :=
  if limit.any (· < 1) then .error .roundLimitTooSmall else .ok ()

namespace StrengthGraph

/-- At most `limit` further rounds, after `rounds` of them gave `labels`. -/
def refine [Arith Ω] (G : StrengthGraph α n) (weights : Vector Ω n) (labels : Vector Label n)
    (rounds : Nat) : (limit : Nat) → Splitting n
  | 0 => ⟨labels, rounds, !Splitting.hasUndecided labels⟩
  | limit + 1 =>
    if Splitting.hasUndecided labels then
      refine G weights (Splitting.playRound G weights labels) (rounds + 1) limit
    else ⟨labels, rounds, true⟩

/-- The splitting of a strength graph with influence weights, after at most `limit` rounds. -/
def split {R : Type} [Arith Ω] (G : StrengthGraph α n) (weights : Vector Ω n) (limit : Option Int) :
    Except (Fault R) (Splitting n) := do
  checkRounds limit
  return G.refine weights (.replicate n .undecided) 0 ((limit.map Int.toNat).getD n)

end StrengthGraph

end Multigrid
