import Multigrid.Proofs.Splitting.Run

/-!
# Renumbered points

A pass of a round writes to the labels along many strong connections at once.  Every rule of a
round speaks of the strong relation, of the weights and of the labels before the round, so neither
the numbers of the points nor the order of the writes can show in the result: the rounds of a
renumbered graph are the renumbered rounds of the graph.

Renumbering asks nothing of the entries of a row but that they stand for the same strong relation.
They may be stored in any order and any number of times, and weak ones do not count.

## Main definitions

* `renumbered`, `Splitting.renumbered`: values and splittings of renumbered points
* `StrengthGraph.IsRenumbered`: two graphs with the same strong relation up to numbers
* `StrengthGraph.renumber`: a graph whose entries are renumbered one by one

## Main results

* `Splitting.playRound_renumbered`: one round
* `StrengthGraph.refine_renumbered`, `StrengthGraph.map_split_renumbered`: all rounds
* `StrengthGraph.split_isRenumbered`: the labels of the points, under every limit
-/

namespace Multigrid

variable {α β Ω R : Type} {n : Nat}

/-- The values of renumbered points: point `π i` has the value that point `i` had before. -/
def renumbered (π : Equiv.Perm (Fin n)) (values : Vector α n) : Vector α n :=
  .ofFn fun i => values.get (π.symm i)

@[simp] theorem get_renumbered (π : Equiv.Perm (Fin n)) (values : Vector α n) (i : Fin n) :
    (renumbered π values).get (π i) = values.get i := by
  have hget : (renumbered π values).get (π i) = values.get (π.symm (π i)) :=
    Vector.getElem_ofFn (π i).isLt
  rw [hget, π.symm_apply_apply]

theorem eq_renumbered {π : Equiv.Perm (Fin n)} {values values' : Vector α n}
    (h : ∀ i, values'.get (π i) = values.get i) : values' = renumbered π values := by
  apply Vector.ext
  intro i hi
  obtain ⟨j, hj⟩ := π.surjective ⟨i, hi⟩
  have hget : values'.get ⟨i, hi⟩ = (renumbered π values).get ⟨i, hi⟩ := by
    rw [← hj, h, get_renumbered]
  exact hget

/-- Without new numbers nothing changes. -/
theorem renumbered_refl (values : Vector α n) : renumbered (Equiv.refl (Fin n)) values = values :=
  (eq_renumbered fun _ => rfl).symm

/-- The splitting of renumbered points. -/
def Splitting.renumbered (π : Equiv.Perm (Fin n)) (s : Splitting n) : Splitting n :=
  { s with labels := Multigrid.renumbered π s.labels }

namespace StrengthGraph

/-- Row `π i` of `H` has a strong entry in column `π j` if and only if row `i` of `G` has one in
column `j`. -/
def IsRenumbered (π : Equiv.Perm (Fin n)) (G : StrengthGraph α n) (H : StrengthGraph β n) : Prop :=
  ∀ i j, H.IsStrong (π i) (π j) ↔ G.IsStrong i j

instance (π : Equiv.Perm (Fin n)) (G : StrengthGraph α n) (H : StrengthGraph β n) :
    Decidable (IsRenumbered π G H) :=
  inferInstanceAs (Decidable (∀ i j, H.IsStrong (π i) (π j) ↔ G.IsStrong i j))

/-- The graph with rows and columns renumbered.  Every entry keeps its mark. -/
def renumber (π : Equiv.Perm (Fin n)) (G : StrengthGraph α n) : StrengthGraph α n :=
  ofRows fun i => (G.row (π.symm i)).map fun c => ⟨⟨π c.column, c.value⟩, c.strong⟩

/-- A graph that has the entries of the renumbered graph in every row, in any order and any number
of times. -/
theorem isRenumbered_of_mem_iff {π : Equiv.Perm (Fin n)} {G H : StrengthGraph α n}
    (h : ∀ i c, c ∈ H.row i ↔ c ∈ (G.renumber π).row i) : IsRenumbered π G H := by
  intro i j
  simp only [IsStrong, h, renumber, row_ofRows, π.symm_apply_apply, List.mem_map]
  constructor
  · rintro ⟨_, ⟨c, hc, rfl⟩, hstrong, hj⟩
    exact ⟨c, hc, hstrong, π.injective hj⟩
  · rintro ⟨c, hc, hstrong, rfl⟩
    exact ⟨_, ⟨c, hc, rfl⟩, hstrong, rfl⟩

end StrengthGraph

/-! ## One round -/

namespace Splitting

theorem hasUndecided_renumbered (π : Equiv.Perm (Fin n)) (labels : Vector Label n) :
    hasUndecided (Multigrid.renumbered π labels) = hasUndecided labels := by
  rw [Bool.eq_iff_iff, hasUndecided_iff, hasUndecided_iff, π.surjective.exists]
  simp only [get_renumbered]

variable [Arith Ω] {π : Equiv.Perm (Fin n)} {G : StrengthGraph α n} {H : StrengthGraph β n}
  {weights : Vector Ω n} {labels : Vector Label n}

theorem isCandidate_renumbered (i : Fin n) :
    IsCandidate (Multigrid.renumbered π weights) (Multigrid.renumbered π labels) (π i) ↔
      IsCandidate weights labels i := by
  simp only [IsCandidate, get_renumbered]

theorem isOutweighed_renumbered (h : StrengthGraph.IsRenumbered π G H) (i : Fin n) :
    IsOutweighed H (Multigrid.renumbered π weights) (Multigrid.renumbered π labels) (π i) ↔
      IsOutweighed G weights labels i := by
  unfold IsOutweighed
  rw [π.surjective.exists]
  simp only [isCandidate_renumbered, h _ _, get_renumbered]

variable [WeightOrder Ω]

theorem get_contested_renumbered (h : StrengthGraph.IsRenumbered π G H) (i : Fin n) :
    (contested H (Multigrid.renumbered π weights) (Multigrid.renumbered π labels)).get (π i) =
      (contested G weights labels).get i := by
  simp only [get_contested, isCandidate_renumbered, isOutweighed_renumbered h, get_renumbered]

/-- A round of the renumbered graph. -/
theorem playRound_renumbered (h : StrengthGraph.IsRenumbered π G H) :
    playRound H (Multigrid.renumbered π weights) (Multigrid.renumbered π labels) =
      Multigrid.renumbered π (playRound G weights labels) := by
  apply eq_renumbered
  intro i
  -- closure looks at points that are coarse after the round, and those are coarse before closure
  have hcoarse (j : Fin n) :
      (playRound H (Multigrid.renumbered π weights) (Multigrid.renumbered π labels)).get (π j) =
        .coarse ↔ (playRound G weights labels).get j = .coarse := by
    rw [get_playRound_eq_coarse_iff_contested, get_playRound_eq_coarse_iff_contested,
      get_contested_renumbered h]
  have hclosed : (∃ j, H.IsStrong (π i) j ∧ (playRound H (Multigrid.renumbered π weights)
        (Multigrid.renumbered π labels)).get j = .coarse) ↔
      ∃ j, G.IsStrong i j ∧ (playRound G weights labels).get j = .coarse := by
    rw [π.surjective.exists]
    simp only [h _ _, hcoarse]
  -- what is left is the rule for point `π i`, with the same contested label and the same closure
  rw [get_playRound, get_playRound, get_contested_renumbered h]
  simp only [hclosed]

end Splitting

/-! ## All rounds -/

namespace StrengthGraph

variable [Arith Ω] [WeightOrder Ω] {π : Equiv.Perm (Fin n)} {G : StrengthGraph α n}
  {H : StrengthGraph β n}

/-- A loop over renumbered points stops after as many rounds. -/
theorem refine_renumbered (h : IsRenumbered π G H) (weights : Vector Ω n) (labels : Vector Label n)
    (rounds limit : Nat) :
    H.refine (renumbered π weights) (renumbered π labels) rounds limit =
      (G.refine weights labels rounds limit).renumbered π := by
  induction limit generalizing labels rounds with
  | zero =>
    rw [refine, refine, Splitting.hasUndecided_renumbered]
    rfl
  | succ limit ih =>
    rw [refine, refine, Splitting.hasUndecided_renumbered]
    split_ifs
    · rw [Splitting.playRound_renumbered h, ih]
    · rfl

theorem map_split_renumbered (h : IsRenumbered π G H) (weights : Vector Ω n) (limit : Option Int) :
    H.split (renumbered π weights) limit =
      (G.split weights limit : Except (Fault R) (Splitting n)).map (Splitting.renumbered π) := by
  have hstart : (.replicate n .undecided : Vector Label n) =
      renumbered π (.replicate n .undecided) := by
    apply eq_renumbered
    simp [Vector.get]
  unfold split
  cases (checkRounds limit : Except (Fault R) Unit) with
  | error fault => rfl
  | ok _ =>
    show Except.ok _ = Except.ok _
    conv_lhs => rw [hstart]
    rw [refine_renumbered h]

/-- Two graphs with the same strong relation up to the numbers of the points, and weights that go
with the points.  Under every limit the points get the same labels, after as many rounds, and the
splitting has converged for both or for neither. -/
theorem split_isRenumbered (h : IsRenumbered π G H) {weights weights' : Vector Float32 n}
    (hweights : ∀ i, weights'.get (π i) = weights.get i) {limit : Option Int}
    (hlimit : ∀ cap ∈ limit, 1 ≤ cap) :
    ∃ s s' : Splitting n, (G.split weights limit : Except (Fault R) (Splitting n)) = .ok s ∧
      (H.split weights' limit : Except (Fault R) (Splitting n)) = .ok s' ∧
      (∀ i, s'.labels.get (π i) = s.labels.get i) ∧ s'.rounds = s.rounds ∧
      s'.converged = s.converged := by
  obtain ⟨s, hs⟩ : ∃ s, (G.split weights limit : Except (Fault R) (Splitting n)) = .ok s :=
    ⟨_, split_eq_ok limit hlimit⟩
  have hsplit := map_split_renumbered (R := R) h weights limit
  rw [← eq_renumbered hweights, hs] at hsplit
  exact ⟨s, s.renumbered π, hs, hsplit, get_renumbered π s.labels, rfl, rfl⟩

/-- Three points, of which the first has a strong entry for the second and that one for the
third. -/
def relay : StrengthGraph Unit 3 :=
  ofRows fun i => if i.val < 2 then
    [⟨⟨finRotate 3 i, ()⟩, true⟩, ⟨⟨(finRotate 3).symm i, ()⟩, false⟩] else []

/-- The relay with every point moved on by one, some entries left out and one stored twice. -/
def movedRelay : StrengthGraph Unit 3 :=
  ofRows fun i =>
    let next : Connection Unit 3 := ⟨⟨finRotate 3 i, ()⟩, true⟩
    let previous : Connection Unit 3 := ⟨⟨(finRotate 3).symm i, ()⟩, false⟩
    if i.val = 0 then [] else if i.val = 1 then [next, previous, next] else [previous, next]

/-- The first two points of the relay weigh the same, so both are coarse after a round, and the
third one is withdrawn.  So they are after they have moved. -/
theorem movedRelay_coarse_twice :
    IsRenumbered (finRotate 3) relay movedRelay ∧
    (∀ i, (#v[1, 3, 3] : Vector Float32 3).get (finRotate 3 i) =
      (#v[3, 3, 1] : Vector Float32 3).get i) ∧
    (∀ cap ∈ some (1 : Int), 1 ≤ cap) ∧
    ∃ s : Splitting 3, (movedRelay.split (#v[1, 3, 3] : Vector Float32 3) (some 1) :
        Except (Fault Unit) (Splitting 3)) = .ok s ∧
      s.labels.get 1 = .coarse ∧ s.labels.get 2 = .coarse ∧ s.labels.get 0 = .undecided ∧
      s.rounds = 1 ∧ s.converged = false := by
  have hrelay : IsRenumbered (finRotate 3) relay movedRelay := by decide
  have hweights : ∀ i, (#v[1, 3, 3] : Vector Float32 3).get (finRotate 3 i) =
      (#v[3, 3, 1] : Vector Float32 3).get i := by decide
  have hlimit : ∀ cap ∈ some (1 : Int), 1 ≤ cap := by simp
  have hsplit : relay.split (#v[3, 3, 1] : Vector Float32 3) (some 1) =
      (.ok ⟨#v[.coarse, .coarse, .undecided], 1, false⟩ : Except (Fault Unit) (Splitting 3)) := by
    with_unfolding_all rfl
  obtain ⟨s, s', hs, hs', hlabels, hrounds, hconverged⟩ :=
    split_isRenumbered (R := Unit) hrelay hweights hlimit
  obtain rfl := Except.ok.inj (hs.symm.trans hsplit)
  exact ⟨hrelay, hweights, hlimit, s', hs', hlabels 0, hlabels 1, hlabels 2, hrounds, hconverged⟩

end StrengthGraph

end Multigrid
