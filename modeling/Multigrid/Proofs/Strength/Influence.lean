import Multigrid.Strength.Influence
import Multigrid.Proofs.Scalar.Increment
import Multigrid.Proofs.Strength.Relation

/-!
# Points of influence

A point has influence if some row has a strong entry in its column.  From a start value that is not
below zero such a point gets a weight of at least one, however the increments are rounded.  The
converse does not hold, as a start value may itself be one.

## Main definitions

* `InfluenceStart.IsNotNegative`: sources of start values that are not below zero

## Main results

* `StrengthGraph.one_le_influence`: the weight of a point of influence
* `SparseMatrix.one_le_of_measured`: the same for the weights of an operator
-/

namespace Multigrid

variable {α V W R : Type} {n : Nat}

/-! ## Increments -/

theorem one_le_increased {start : Float32} (h : 0 ≤ start) {count : Nat} (hcount : 0 < count) :
    1 ≤ increased start count := by
  -- by induction on the number of increments: what they give stays above zero
  have hnotNeg (count : Nat) : 0 ≤ increased start count ∧ 1 ≤ increased start (count + 1) := by
    induction count with
    | zero => exact ⟨h, one_le_add_one h⟩
    | succ count ih =>
      have hzero := zero_le_of_one_le ih.2
      exact ⟨hzero, one_le_add_one hzero⟩
  obtain ⟨k, rfl⟩ := Nat.exists_eq_add_one.mpr hcount
  exact (hnotNeg k).2

theorem StrengthGraph.get_influence {Ω : Type} [Add Ω] [One Ω] (G : StrengthGraph α n)
    (start : Vector Ω n) (j : Fin n) :
    (G.influence start).get j =
      increased (start.get j) ((G.strongPairs.map Prod.snd).count j) :=
  Vector.getElem_ofFn j.isLt

theorem StrengthGraph.one_le_influence {G : StrengthGraph α n} {start : Vector Float32 n}
    {i j : Fin n} (hstart : 0 ≤ start.get j) (h : G.IsStrong i j) :
    1 ≤ (G.influence start).get j := by
  rw [get_influence]
  apply one_le_increased hstart
  rw [List.count_pos_iff]
  exact List.mem_map_of_mem (f := Prod.snd) (mem_strongPairs.mpr h)

/-! ## Start values -/

/-- No start value is below zero.  That is left to the caller only where the values are given. -/
def InfluenceStart.IsNotNegative : InfluenceStart → Prop
  | .given weights => ∀ x ∈ weights, 0 ≤ x
  | .zero | .drawn _ => True

theorem zero_le_uniforms {seed : List UInt32} {x : Float32} (hx : x ∈ Random.uniforms seed n) :
    0 ≤ x := by
  obtain ⟨draw, -, rfl⟩ := List.mem_map.mp hx
  exact zero_le_unitValue draw

theorem InfluenceStart.IsNotNegative.zero_le {start : InfluenceStart} (h : start.IsNotNegative)
    {weights : Vector Float32 n}
    (hweights : start.weights n = (.ok weights : Except (Fault R) (Vector Float32 n)))
    (i : Fin n) : 0 ≤ weights.get i := by
  have hzero : (0 : Float32) ≤ 0 := by decide
  cases start with
  | zero =>
    cases hweights
    rw [show (Vector.replicate n (0 : Float32)).get i = 0 from Vector.getElem_replicate i.isLt]
    exact hzero
  | drawn seed =>
    cases hweights
    show 0 ≤ (Vector.ofFn fun i : Fin n => (Random.uniforms seed n).toArray.getD i 0).get i
    rw [show (Vector.ofFn fun i : Fin n => (Random.uniforms seed n).toArray.getD i 0).get i =
      (Random.uniforms seed n).toArray.getD i 0 from Vector.getElem_ofFn i.isLt]
    rw [Array.getD_eq_getD_getElem?]
    -- a point without a draw starts from zero
    cases hdraw : (Random.uniforms seed n).toArray[i.val]? with
    | none => exact hzero
    | some x => exact zero_le_uniforms (List.mem_of_getElem? (by simpa using hdraw))
  | given values =>
    simp only [InfluenceStart.weights] at hweights
    split_ifs at hweights with hsize
    cases hweights
    exact h _ (List.getElem_mem (n := i.val) (by simpa [← hsize] using i.isLt))

/-! ## Weights of an operator -/

namespace SparseMatrix

variable [Arith V] [Arith W] [Storage V V W] {A : SparseMatrix V n n} {tolerance : W}
  {start : InfluenceStart} {graph : StrengthGraph V n} {weights : Vector Float32 n}

theorem exists_of_measured_eq_ok
    (h : A.measured tolerance start = .ok (graph, weights)) :
    ∃ values : Vector Float32 n, start.weights n = (.ok values : Except (Fault W) _) ∧
      graph = .ofMatrix (Storage.narrow tolerance) A ∧ weights = graph.influence values := by
  unfold measured at h
  cases htol : checkTolerance tolerance with
  | error fault =>
    rw [htol] at h
    cases h
  | ok _ =>
    cases hvalues : (start.weights n : Except (Fault W) (Vector Float32 n)) with
    | error fault =>
      rw [htol, hvalues] at h
      cases h
    | ok values =>
      rw [htol, hvalues] at h
      cases h
      exact ⟨values, rfl, rfl, rfl⟩

/-- The columns of strong entries belong to points of weight at least one. -/
theorem one_le_of_measured (h : A.measured tolerance start = .ok (graph, weights))
    (hstart : start.IsNotNegative) {i j : Fin n} (hij : graph.IsStrong i j) :
    1 ≤ weights.get j := by
  obtain ⟨values, hvalues, -, rfl⟩ := exists_of_measured_eq_ok h
  exact StrengthGraph.one_le_influence (hstart.zero_le hvalues j) hij

/-- Entries on the diagonal are not strong. -/
theorem ne_of_isStrong_of_measured (h : A.measured tolerance start = .ok (graph, weights))
    {i j : Fin n} (hij : graph.IsStrong i j) : j ≠ i := by
  obtain ⟨values, -, rfl, -⟩ := exists_of_measured_eq_ok h
  obtain ⟨c, hc, hstrong, rfl⟩ := hij
  exact ((StrengthGraph.mem_row_ofMatrix hc).2.mp hstrong).1

end SparseMatrix

end Multigrid
