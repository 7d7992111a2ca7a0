import Multigrid.Hierarchy.Parameters
import Multigrid.Proofs.Scalar.Canonical
import Multigrid.Proofs.Sparse.RowBuffer

/-!
# Valid parameters

Options that pass the checks have parameters in the ranges that the kernels admit.  A limit on
rounds that is written as a fraction stands for the next integer, which is at least one as well.
The checks do not look at the seed, so it may still turn out to be none.

## Main definitions

* `Parameters.IsValid`: parameters in the admitted ranges

## Main results

* `Options.isValid_of_resolve`: the parameters of checked options
* `Options.resolve_cases`: checked options have parameters, or a seed that is used is none
* `Options.exists_resolve_eq_ok`: checked options with a seed have parameters
* `Options.resolve_withEntropy`: these do not depend on what the system would draw
-/

namespace Multigrid

variable {W : Type}

theorem of_ite_eq_ok {ε : Type} {p : Prop} [Decidable p] {fault : ε} {u : Unit}
    (h : (if p then .ok () else .error fault) = Except.ok u) : p := by
  by_contra hp
  rw [if_neg hp] at h
  cases h

/-- A limit that passes its check is absent or not below one. -/
theorem isBelowOne_of_checkLimit {limit : Datum} {fault : Fault W} {u : Unit}
    (h : checkLimit limit fault = .ok u) :
    limit = .nothing ∨ limit.isBelowOne = (.ok false : Except (Fault W) Bool) := by
  unfold checkLimit at h
  split at h
  · exact .inl rfl
  · obtain ⟨below, hbelow, h⟩ := exists_of_bind_eq_ok h
    cases below with
    | false => exact .inr hbelow
    | true => cases h

theorem one_le_of_isBelowOne {value : Int}
    (h : (Datum.integer value).isBelowOne = (.ok false : Except (Fault W) Bool)) : 1 ≤ value := by
  have hnot := of_decide_eq_false (Except.ok.inj h)
  omega

theorem not_lt_of_isBelowOne {x : Float}
    (h : (Datum.real x).isBelowOne = (.ok false : Except (Fault W) Bool)) : ¬ x < 1 :=
  of_decide_eq_false (Except.ok.inj h)

/-- A limit that passes its check is at least one. -/
theorem one_le_of_checkLimit {limit : Datum} {fault : Fault W} {u : Unit}
    (h : checkLimit limit fault = .ok u) (hlimit : ∀ x, limit ≠ .real x) {rounds : Option Int}
    (hrounds : limit.toRoundLimit = (.ok rounds : Except (Fault W) (Option Int))) :
    ∀ cap ∈ rounds, 1 ≤ cap := by
  rcases isBelowOne_of_checkLimit h with rfl | hbelow
  · cases hrounds
    simp
  · cases limit with
    | flag value =>
      cases hrounds
      cases value with
      | false => cases hbelow
      | true => simp
    | integer value =>
      cases hrounds
      rintro cap ⟨⟩
      exact one_le_of_isBelowOne hbelow
    | real x => exact absurd rfl (hlimit x)
    | nothing | text _ | list _ | record _ => cases hbelow

/-- A limit that passes its check stands for no limit, or for one that is at least one. -/
theorem exists_toRoundLimit_eq_ok {limit : Datum} {fault : Fault W} {u : Unit}
    (h : checkLimit limit fault = .ok u) :
    ∃ rounds, limit.toRoundLimit = (.ok rounds : Except (Fault W) (Option Int)) ∧
      ∀ cap ∈ rounds, 1 ≤ cap := by
  rcases isBelowOne_of_checkLimit h with rfl | hbelow
  · exact ⟨none, rfl, by simp⟩
  · cases limit with
    | flag value => exact ⟨_, rfl, one_le_of_checkLimit h (fun _ => Datum.noConfusion) rfl⟩
    | integer value => exact ⟨_, rfl, one_le_of_checkLimit h (fun _ => Datum.noConfusion) rfl⟩
    | real x =>
      have hx := not_lt_of_isBelowOne hbelow
      refine ⟨_, rfl, fun cap hcap => ?_⟩
      rw [if_neg hx] at hcap
      exact one_le_of_ceiling?_eq_some hx hcap
    | nothing | text _ | list _ | record _ => cases hbelow

theorem integerPart_of_wholePart {x : Float} {k : Int}
    (h : Datum.wholePart x = (.ok k : Except (Fault W) Int)) : integerPart x = some k := by
  unfold Datum.wholePart at h
  split at h
  · obtain rfl := Except.ok.inj h
    assumption
  · cases h

/-- A value that is not below one asks for as many slots as it has without its fraction. -/
theorem toWhole_of_toCapacity {value : Datum}
    (hbelow : value.isBelowOne = (.ok false : Except (Fault W) Bool)) {slots : Int}
    (hslots : value.toCapacity = (.ok (some slots) : Except (Fault W) (Option Int))) :
    value.toWhole = (.ok slots : Except (Fault W) Int) := by
  have htoSlots : value.toSlots = (.ok slots : Except (Fault W) Int) := by
    unfold Datum.toCapacity at hslots
    split at hslots
    · cases hslots
    · obtain ⟨slots', hslots', h⟩ := exists_of_bind_eq_ok hslots
      cases h
      exact hslots'
  unfold Datum.toSlots at htoSlots
  obtain ⟨below, hbelow', h⟩ := exists_of_bind_eq_ok htoSlots
  obtain rfl := Except.ok.inj (hbelow'.symm.trans hbelow)
  obtain ⟨whole, hwhole, h⟩ := exists_of_bind_eq_ok h
  dsimp only at h
  split_ifs at h
  · cases h
  · obtain ⟨_, -, h⟩ := exists_of_bind_eq_ok h
    cases h
    exact hwhole

/-- A capacity that passes its check is at least one. -/
theorem one_le_of_toCapacity {capacity : Datum} {fault : Fault W} {u : Unit}
    (h : checkLimit capacity fault = .ok u) {slots : Int}
    (hslots : capacity.toCapacity = (.ok (some slots) : Except (Fault W) (Option Int))) :
    1 ≤ slots := by
  rcases isBelowOne_of_checkLimit h with rfl | hbelow
  · cases hslots
  · have hwhole : capacity.toWhole = (.ok slots : Except (Fault W) Int) :=
      toWhole_of_toCapacity hbelow hslots
    cases capacity with
    | flag value =>
      cases value with
      | false => cases hbelow
      | true =>
        cases hwhole
        exact le_rfl
    | integer value =>
      cases hwhole
      exact one_le_of_isBelowOne hbelow
    | real x =>
      -- the fraction is dropped of a number that is not below one
      have hpart : integerPart x = some slots := integerPart_of_wholePart hwhole
      have hx := not_lt_of_isBelowOne hbelow
      exact one_le_of_integerPart_eq_some (one_le_of_not_lt_one hx hpart) hpart
    | nothing | text _ | list _ | record _ => cases hbelow

/-- An integer that is not negative is a seed, whatever the system would draw. -/
theorem toSeed_eq_ok {value : Datum} {k : Int} (hk : value.toInteger? = some k) (hnonneg : 0 ≤ k)
    (drawn : Nat) :
    value.toSeed drawn = (.ok (Random.seedWords k.toNat) : Except (Fault W) (List UInt32)) := by
  have hitem : Datum.toSeed.seedItem value =
      (.ok (Random.seedWords k.toNat) : Except (Fault W) (List UInt32)) := by
    refine bind_eq_ok (a := k) ?_ (if_neg (Int.not_lt.mpr hnonneg))
    rw [Datum.toInteger, hk]
  cases value with
  | flag _ => exact hitem
  | integer _ => exact hitem
  | nothing | real _ | text _ | list _ | record _ => cases hk

variable [Arith W]

/-- What the checks find out. -/
theorem Options.of_check_eq_ok {o : Options W} {scheme : Scheme} (h : o.check = .ok scheme) :
    (0 < o.tolerance ∧ o.tolerance ≤ 1) ∧ (0 ≤ o.truncation ∧ o.truncation ≤ 1) ∧
      checkLimit o.maxRounds .roundLimitTooSmall = (.ok () : Except (Fault W) Unit) ∧
      checkLimit o.capacity .capacityTooSmall = (.ok () : Except (Fault W) Unit) := by
  obtain ⟨_, htolerance, h⟩ := exists_of_bind_eq_ok h
  split at h
  · obtain ⟨_, hratio, h⟩ := exists_of_bind_eq_ok h
    obtain ⟨_, hlimit, h⟩ := exists_of_bind_eq_ok h
    obtain ⟨_, hcapacity, -⟩ := exists_of_bind_eq_ok h
    exact ⟨of_ite_eq_ok htolerance, of_ite_eq_ok hratio, hlimit, hcapacity⟩
  · cases h

/-- The parameters that are admitted. -/
structure Parameters.IsValid (p : Parameters W) : Prop where
  /-- The tolerance. -/
  tolerance : 0 < p.tolerance ∧ p.tolerance ≤ 1
  /-- The ratio of truncation. -/
  truncation : 0 ≤ p.truncation ∧ p.truncation ≤ 1
  /-- The limit on rounds. -/
  maxRounds : ∀ cap ∈ p.maxRounds, 1 ≤ cap

/-- Options that pass the checks have valid parameters.  No capacity is given if none is written. -/
theorem Options.isValid_of_resolve {o : Options W} {p : Parameters W} (h : o.resolve = .ok p)
    (hrounds : ∀ x, o.maxRounds ≠ .real x) :
    p.IsValid ∧ (o.capacity = .nothing → p.capacity = .ok none) := by
  obtain ⟨scheme, hcheck, h⟩ := exists_of_bind_eq_ok h
  obtain ⟨rounds, hmax, h⟩ := exists_of_bind_eq_ok h
  dsimp only at h
  obtain ⟨seed, hp⟩ : ∃ seed, p = {
      tolerance := o.tolerance, scheme, firstOnly := o.firstOnly.isTruthy
      truncation := o.truncation, maxRounds := rounds, tieBreak := o.tieBreak.isTruthy, seed
      capacity := o.capacity.toCapacity, report := o.report.isTruthy } := by
    split_ifs at h
    · obtain ⟨seed, -, h⟩ := exists_of_bind_eq_ok h
      exact ⟨seed, (Except.ok.inj h).symm⟩
    · exact ⟨[], (Except.ok.inj h).symm⟩
  subst hp
  obtain ⟨htolerance, hratio, hlimit, -⟩ := of_check_eq_ok hcheck
  refine ⟨⟨htolerance, hratio, one_le_of_checkLimit hlimit hrounds hmax⟩, fun hcapacity => ?_⟩
  show o.capacity.toCapacity = _
  rw [hcapacity]
  rfl

/-- Options that pass the checks have valid parameters, unless a seed is used that is none. -/
theorem Options.resolve_cases {o : Options W} {scheme : Scheme} (hcheck : o.check = .ok scheme) :
    (∃ p, o.resolve = .ok p ∧ p.IsValid ∧ p.capacity = o.capacity.toCapacity ∧
      p.scheme = scheme ∧ p.firstOnly = o.firstOnly.isTruthy) ∨
    ∃ fault, o.resolve = .error fault ∧ o.tieBreak.isTruthy = true ∧
      o.seed.toSeed (o.entropy 0) = (.error fault : Except (Fault W) (List UInt32)) := by
  obtain ⟨htolerance, hratio, hlimit, -⟩ := of_check_eq_ok hcheck
  obtain ⟨rounds, hrounds, hone⟩ := exists_toRoundLimit_eq_ok hlimit
  cases hwords : (if o.tieBreak.isTruthy then o.seed.toSeed (o.entropy 0) else pure [] :
      Except (Fault W) (List UInt32)) with
  | error fault =>
    refine .inr ⟨fault, ?_, ?_⟩
    · refine (bind_eq_of_eq_ok hcheck).trans ((bind_eq_of_eq_ok hrounds).trans ?_)
      dsimp only
      split_ifs at hwords ⊢
      · exact bind_eq_error hwords
      · cases hwords
    · split_ifs at hwords with htie
      · exact ⟨htie, hwords⟩
      · cases hwords
  | ok words =>
    have hresolve : o.resolve = .ok {
        tolerance := o.tolerance, scheme, firstOnly := o.firstOnly.isTruthy
        truncation := o.truncation, maxRounds := rounds, tieBreak := o.tieBreak.isTruthy
        seed := words, capacity := o.capacity.toCapacity, report := o.report.isTruthy } := by
      refine bind_eq_ok hcheck (bind_eq_ok hrounds ?_)
      dsimp only
      split_ifs at hwords ⊢
      · exact bind_eq_ok hwords rfl
      · exact bind_eq_ok hwords rfl
    exact .inl ⟨_, hresolve, ⟨htolerance, hratio, hone⟩, rfl, rfl, rfl⟩

/-- Options that pass the checks have parameters if a seed that is used is an integer from zero on,
and these parameters are valid. -/
theorem Options.exists_resolve_eq_ok {o : Options W} {scheme : Scheme}
    (hcheck : o.check = .ok scheme)
    (hcapacity : o.capacity = .nothing)
    (hseed : o.tieBreak.isTruthy = true → ∃ k, o.seed.toInteger? = some k ∧ 0 ≤ k) :
    ∃ p, o.resolve = .ok p ∧ p.IsValid ∧ p.capacity = .ok none ∧ p.scheme = scheme ∧
      p.firstOnly = o.firstOnly.isTruthy := by
  rcases resolve_cases hcheck with ⟨p, hresolve, hp, hgiven, hscheme⟩ | ⟨fault, -, htie, hfault⟩
  · rw [hcapacity] at hgiven
    exact ⟨p, hresolve, hp, hgiven, hscheme⟩
  · obtain ⟨k, hk, hnonneg⟩ := hseed htie
    cases (toSeed_eq_ok hk hnonneg _).symm.trans hfault

/-- The parameters do not depend on what the system would draw if a seed that is used is an integer
from zero on. -/
theorem Options.resolve_withEntropy {o : Options W}
    (hseed : o.tieBreak.isTruthy = true → ∃ k, o.seed.toInteger? = some k ∧ 0 ≤ k)
    (entropy : Nat → Nat) : ({ o with entropy } : Options W).resolve = o.resolve := by
  unfold resolve
  -- neither the checks nor the limit on rounds look at the entropy
  refine congrArg (o.check >>= ·) (funext fun scheme => ?_)
  refine congrArg (o.maxRounds.toRoundLimit >>= ·) (funext fun rounds => ?_)
  dsimp only
  split_ifs with htie
  · obtain ⟨k, hk, hnonneg⟩ := hseed htie
    rw [toSeed_eq_ok hk hnonneg, toSeed_eq_ok hk hnonneg]
  · rfl

end Multigrid
