import Multigrid.Proofs.Splitting.Run

/-!
# Independence of the coarse points

Withdrawal compares the points that are promoted in one round, and closure follows strong entries
from a row to a column only.  Neither looks at a coarse point again.  Two coarse points may still be
strongly connected.  If they became coarse in one round then their weights are equal.  If they did
not, then the earlier of them has the strong entry and the later one has none back: closure would
have made the later one fine.

## Main definitions

* `StrengthGraph.BecomesCoarse`: the round after which a point is coarse for good

## Main results

* `StrengthGraph.weight_eq_or_earlier_of_isStrong`: what a strong entry between two coarse points
  says -/

namespace Multigrid

namespace StrengthGraph

variable {α Ω R : Type} {n : Nat}

/-- Point `i` becomes coarse for good in round `k`. -/
def BecomesCoarse [Arith Ω] (G : StrengthGraph α n) (weights : Vector Ω n) (i : Fin n) (k : Nat) :
    Prop :=
  ∀ m, (G.labelsAfter weights m).get i = .coarse ↔ k ≤ m

section

variable [Arith Ω] {G : StrengthGraph α n} {weights : Vector Ω n} {i j : Fin n} {k l : Nat}

theorem BecomesCoarse.coarse (h : G.BecomesCoarse weights i k) :
    (G.labelsAfter weights k).get i = .coarse :=
  (h k).mpr le_rfl

theorem BecomesCoarse.pos (h : G.BecomesCoarse weights i k) : 0 < k := by
  rw [Nat.pos_iff_ne_zero]
  rintro rfl
  simpa using h.coarse

variable [WeightOrder Ω]

/-- A point that is coarse after some rounds became so in one of them. -/
theorem exists_becomesCoarse (h : (G.labelsAfter weights k).get i = .coarse) :
    ∃ r ≤ k, G.BecomesCoarse weights i r := by
  classical
  have hex : ∃ r, (G.labelsAfter weights r).get i = .coarse := ⟨k, h⟩
  refine ⟨Nat.find hex, Nat.find_min' hex h, ?_⟩
  -- a coarse label is final, so it is there from the first such round on
  intro m
  constructor
  · intro hm
    exact Nat.find_min' hex hm
  · intro hm
    exact get_labelsAfter_eq_coarse_of_le hm (Nat.find_spec hex)

namespace BecomesCoarse

theorem undecided (h : G.BecomesCoarse weights i k) (hlk : l < k) :
    (G.labelsAfter weights l).get i = .undecided := by
  by_contra hd
  have hl : (G.labelsAfter weights l).get i = .coarse :=
    (get_labelsAfter_of_decided hlk.le hd).symm.trans h.coarse
  exact absurd ((h l).mp hl) (by omega)

/-- In its round, the point is a candidate that is not outweighed. -/
theorem candidate (h : G.BecomesCoarse weights i (k + 1)) :
    Splitting.IsCandidate weights (G.labelsAfter weights k) i ∧
      ¬ Splitting.IsOutweighed G weights (G.labelsAfter weights k) i := by
  rcases Splitting.get_playRound_eq_coarse_iff.mp h.coarse with hold | hnew
  · rw [h.undecided (Nat.lt_succ_self k)] at hold
    cases hold
  · exact hnew

theorem weight_eq (hi : G.BecomesCoarse weights i k) (hj : G.BecomesCoarse weights j k)
    (hij : G.IsStrong i j) : weights.get i = weights.get j := by
  obtain ⟨k, rfl⟩ := Nat.exists_eq_add_one.mpr hi.pos
  obtain ⟨hci, hoi⟩ := hi.candidate
  obtain ⟨hcj, hoj⟩ := hj.candidate
  -- the lighter of two connected candidates is outweighed by the other one
  rcases WeightOrder.lt_trichotomy hci.2 hcj.2 with hlt | heq | hlt
  · exact absurd ⟨j, hcj, .inl hij, hlt⟩ hoi
  · exact heq
  · exact absurd ⟨i, hci, .inr hij, hlt⟩ hoj

/-- The column of a strong entry does not become coarse before the row. -/
theorem le_of_isStrong (hi : G.BecomesCoarse weights i k) (hj : G.BecomesCoarse weights j l)
    (hij : G.IsStrong i j) : k ≤ l := by
  by_contra hlk
  -- closure would have reached the row, which is still undecided when the column is coarse
  exact ne_coarse_of_get_labelsAfter (hi.undecided (by omega)) hij hj.coarse

end BecomesCoarse

end

/-- If a row has a strong entry in a column and both points are coarse, then either they became
coarse in one round and have equal weights, or the row became coarse in an earlier round than the
column and has no strong entry back.  If the strong relation is symmetric then the weights are
equal. -/
theorem weight_eq_or_earlier_of_isStrong {G : StrengthGraph α n} {weights : Vector Float32 n}
    {limit : Option Int} {s : Splitting n}
    (hs : (G.split weights limit : Except (Fault R) (Splitting n)) = .ok s) {i j : Fin n}
    (hij : G.IsStrong i j) (hi : s.labels.get i = .coarse) (hj : s.labels.get j = .coarse) :
    (∃ ki kj, ki ≤ s.rounds ∧ kj ≤ s.rounds ∧
      G.BecomesCoarse weights i ki ∧ G.BecomesCoarse weights j kj ∧
      (weights.get i = weights.get j ∧ ki = kj ∨ ki < kj ∧ ¬ G.IsStrong j i)) ∧
    (G.IsSymmetric → weights.get i = weights.get j) := by
  have hlabels : s.labels = G.labelsAfter weights s.rounds := by
    rw [eq_splittingAfter hs]
    rfl
  rw [hlabels] at hi hj
  obtain ⟨ki, hki, hbi⟩ := exists_becomesCoarse hi
  obtain ⟨kj, hkj, hbj⟩ := exists_becomesCoarse hj
  have hle : ki ≤ kj := hbi.le_of_isStrong hbj hij
  have hback : G.IsStrong j i → ki = kj := by
    intro hji
    exact le_antisymm hle (hbj.le_of_isStrong hbi hji)
  have heq : ki = kj → weights.get i = weights.get j := by
    rintro rfl
    exact hbi.weight_eq hbj hij
  constructor
  · refine ⟨ki, kj, hki, hkj, hbi, hbj, ?_⟩
    rcases Nat.eq_or_lt_of_le hle with h | h
    · exact .inl ⟨heq h, h⟩
    · exact .inr ⟨h, fun hji => absurd (hback hji) h.ne⟩
  · intro hsymm
    exact heq (hback ((hsymm i j).mp hij))

/-- Two points, of which the first has a strong entry in the column of the second. -/
def oneWay : StrengthGraph Unit 2 := ofRows fun i => if i = 0 then [⟨⟨1, ()⟩, true⟩] else []

/-- The first point of `oneWay` is the heavier one. -/
def oneWayWeights : Vector Float32 2 := #v[2, 1]

theorem oneWay_coarse_twice :
    oneWay.split oneWayWeights none =
        (.ok ⟨#v[.coarse, .coarse], 2, true⟩ : Except (Fault Unit) (Splitting 2)) ∧
      ∃ ki kj, ki < kj ∧ oneWay.BecomesCoarse oneWayWeights 0 ki ∧
        oneWay.BecomesCoarse oneWayWeights 1 kj := by
  have hsplit : oneWay.split oneWayWeights none =
      (.ok ⟨#v[.coarse, .coarse], 2, true⟩ : Except (Fault Unit) (Splitting 2)) := by
    with_unfolding_all rfl
  have hw : oneWayWeights.get 0 ≠ oneWayWeights.get 1 := by decide
  refine ⟨hsplit, ?_⟩
  obtain ⟨⟨ki, kj, -, -, hi, hj, ⟨heq, -⟩ | ⟨hlt, -⟩⟩, -⟩ :=
    weight_eq_or_earlier_of_isStrong hsplit (show oneWay.IsStrong 0 1 by decide) rfl rfl
  · exact absurd heq hw
  · exact ⟨ki, kj, hlt, hi, hj⟩

end StrengthGraph

end Multigrid
