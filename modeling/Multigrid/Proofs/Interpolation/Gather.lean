import Multigrid.Proofs.Interpolation.Rows
import Multigrid.Proofs.Sparse.Coefficient

/-!
# What a row gathers

A row is gathered in one traversal, in which the entries of the row and those of its strong fine
neighbours take turns.  In exact arithmetic the order does not matter.  Every entry adds a fixed
amount to each numerator, to what is returned to the point and to what is lumped, as the amounts
depend on the keys of the table only.  The sums of these amounts over the stored entries are sums of
coefficients.

## Main definitions

* `Extended.opposed`: a value whose sign is not that of another one
* `Extended.strongFine`: the fine points that a point is strongly connected to
* `Extended.numerator`, `Extended.denominator`: what a row gathers, in coefficients
* `Extended.Gathered.Adds`: what a step of the traversal adds

## Main results

* `Extended.weights_eq`: the weights of a row
-/

namespace Multigrid

namespace Extended

variable {n : Nat}

/-! ## In coefficients -/

/-- The value `x` if it is below zero and `d` is not, or the other way round; otherwise zero. -/
def opposed (d x : Rat) : Rat := if 0 ≤ d ↔ 0 ≤ x then 0 else x

theorem opposed_eq (d x : Rat) :
    opposed d x = if isNonnegative d ≠ isNonnegative x then x else 0 := by
  have hiff : isNonnegative d = isNonnegative x ↔ (0 ≤ d ↔ 0 ≤ x) :=
    decide_eq_decide (p := 0 ≤ d) (q := 0 ≤ x)
  by_cases h : 0 ≤ d ↔ 0 ≤ x
  · rw [opposed, if_pos h, if_neg (not_not.mpr (hiff.mpr h))]
  · rw [opposed, if_neg h, if_pos fun heq => h (hiff.mp heq)]

@[simp] theorem opposed_zero (d : Rat) : opposed d 0 = 0 := by
  simp [opposed]

section Coefficients

variable (G : StrengthGraph Rat n) (labels : Vector Label n) (points : Finset (Fin n)) (i : Fin n)

/-- The fine points that point `i` is strongly connected to. -/
def strongFine : Finset (Fin n) :=
  Finset.univ.filter fun k => k ≠ i ∧ G.IsStrong i k ∧ labels.get k = .fine

/-- What row `k` shares among the points and point `i`. -/
def sharedMass (k : Fin n) : Rat :=
  ∑ m ∈ insert i points, opposed (G.operator.coefficient i i) (G.operator.coefficient k m)

/-- The factor from coefficients of row `k` to what is handed on of the value `x`. -/
def share (k : Fin n) (x : Rat) : Rat :=
  if divisionGuard < |sharedMass G points i k| then x / sharedMass G points i k else 0

/-- The coefficient of row `k` in column `j`, if its sign is not that of the diagonal. -/
def opposing (k j : Fin n) : Rat :=
  opposed (G.operator.coefficient k k) (G.operator.coefficient k j)

/-- What point `j` gets by way of the strong fine neighbours of point `i`. -/
def handedBy (j : Fin n) : Rat :=
  ∑ k ∈ strongFine G labels i, share G points i k (G.operator.coefficient i k) * opposing G k j

/-- The numerator of the weight of point `l` in row `i`. -/
def numerator (l : Fin n) : Rat :=
  G.operator.coefficient i l + handedBy G labels points i l

/-- The weak coefficients of row `i` whose points are not reached. -/
def lumpedMass : Rat :=
  ∑ j with j ≠ i ∧ j ∉ points ∧ ¬ G.IsStrong i j, G.operator.coefficient i j

/-- The denominator of the weights of row `i`. -/
def denominator : Rat :=
  lumpedMass G points i + handedBy G labels points i i + G.operator.coefficient i i

end Coefficients

/-! ## Tables -/

section Holds

variable {points : Finset (Fin n)} {t : ProbingTable Rat}

/-- The keys of a valid table are the numbers of the points. -/
structure Holds (points : Finset (Fin n)) (t : ProbingTable Rat) : Prop where
  /-- The table is valid. -/
  isValid : t.IsValid
  /-- The keys. -/
  stored : t.storedKeys = points.image fun l => (l.val : Int)

theorem val_ne_reservedKey (l : Fin n) : (l.val : Int) ≠ ProbingTable.reservedKey := by
  rw [ProbingTable.reservedKey]
  omega

namespace Holds

variable (ht : Holds points t)

include ht

theorem mem_storedKeys {l : Fin n} : (l.val : Int) ∈ t.storedKeys ↔ l ∈ points := by
  rw [ht.stored, Finset.mem_image]
  constructor
  · rintro ⟨m, hm, heq⟩
    obtain rfl := Fin.ext (Int.ofNat.inj heq)
    exact hm
  · exact fun hl => ⟨l, hl, rfl⟩

theorem contains_iff {l : Fin n} : t.contains l.val = true ↔ l ∈ points := by
  rw [ht.isValid.contains_iff (val_ne_reservedKey l), ht.mem_storedKeys]

theorem of_sameKeys {t' : ProbingTable Rat} (h : t.SameKeys t') : Holds points t' :=
  ⟨h.isValid ht.isValid, h.storedKeys_eq.trans ht.stored⟩

theorem add?_eq_none {k : Fin n} (hk : k ∉ points) (x : Rat) : t.add? k.val x = none := by
  apply ProbingTable.add?_eq_none (val_ne_reservedKey k)
  rwa [ht.mem_storedKeys]

theorem exists_add? {k : Fin n} (hk : k ∈ points) (x : Rat) :
    ∃ t', t.add? k.val x = some t' ∧ Holds points t' ∧ ∀ l ∈ points,
      t'.valueOf l.val = t.valueOf l.val + if k = l then x else 0 := by
  obtain ⟨t', hadd, hsame, hvalue⟩ := ht.isValid.exists_add? (val_ne_reservedKey k)
    (ht.mem_storedKeys.mpr hk) x
  refine ⟨t', hadd, ht.of_sameKeys hsame, fun l hl => ?_⟩
  rw [hvalue l.val (ht.mem_storedKeys.mpr hl) (val_ne_reservedKey l)]
  by_cases hkl : k = l
  · rw [if_pos hkl, if_pos (by rw [hkl])]
  · have hne : (l.val : Int) ≠ k.val := fun heq => hkl (Fin.ext (Int.ofNat.inj heq).symm)
    rw [if_neg hkl, if_neg hne, add_zero]

theorem deposit (k : Fin n) (x : Rat) : Holds points (deposit t k x) ∧ ∀ l ∈ points,
    (Extended.deposit t k x).valueOf l.val = t.valueOf l.val + if k = l then x else 0 := by
  unfold Extended.deposit
  by_cases hk : k ∈ points
  · obtain ⟨t', hadd, hholds, hvalue⟩ := ht.exists_add? hk x
    rw [show Storage.narrow x = x from rfl, hadd]
    exact ⟨hholds, hvalue⟩
  · rw [show Storage.narrow x = x from rfl, ht.add?_eq_none hk]
    refine ⟨ht, fun l hl => ?_⟩
    have hkl : k ≠ l := fun heq => hk (heq ▸ hl)
    rw [Option.getD_none, if_neg hkl, add_zero]

omit ht in
theorem foldl_deposit {β : Type} (column : β → Fin n) (f : β → Rat) (items : List β)
    (ht : Holds points t) :
    Holds points (items.foldl (fun t b => Extended.deposit t (column b) (f b)) t) ∧
      ∀ l ∈ points,
        (items.foldl (fun t b => Extended.deposit t (column b) (f b)) t).valueOf l.val =
          t.valueOf l.val + (items.map fun b => if column b = l then f b else 0).sum := by
  induction items generalizing t with
  | nil => exact ⟨ht, by simp⟩
  | cons b items ih =>
    obtain ⟨hholds, hvalue⟩ := ht.deposit (column b) (f b)
    obtain ⟨hholds', hvalue'⟩ := ih hholds
    refine ⟨hholds', fun l hl => ?_⟩
    rw [List.foldl_cons, hvalue' l hl, hvalue l hl, List.map_cons, List.sum_cons, add_assoc]

end Holds

end Holds

/-! ## Steps of the traversal -/

section Steps

variable {G : StrengthGraph Rat n} {labels : Vector Label n} {points : Finset (Fin n)} {i : Fin n}

/-- From `g` to `g'`, every point gets its share, `back` is returned and `lump` is lumped. -/
structure Gathered.Adds (points : Finset (Fin n)) (share : Fin n → Rat) (back lump : Rat)
    (g g' : Gathered Rat Rat) : Prop where
  /-- The table still holds the points. -/
  holds : Holds points g'.table
  /-- The shares. -/
  numerator : ∀ l ∈ points, g'.table.valueOf l.val = g.table.valueOf l.val + share l
  /-- What is returned. -/
  returned : g'.returned = g.returned + back
  /-- What is lumped. -/
  lumped : g'.lumped = g.lumped + lump

namespace Gathered.Adds

theorem refl {g : Gathered Rat Rat} (hg : Holds points g.table) : Adds points 0 0 0 g g :=
  ⟨hg, by simp, by simp, by simp⟩

theorem trans {share share' : Fin n → Rat} {back back' lump lump' : Rat}
    {g g' g'' : Gathered Rat Rat} (h : Adds points share back lump g g')
    (h' : Adds points share' back' lump' g' g'') :
    Adds points (share + share') (back + back') (lump + lump') g g'' where
  holds := h'.holds
  numerator l hl := by rw [h'.numerator l hl, h.numerator l hl, Pi.add_apply, add_assoc]
  returned := by rw [h'.returned, h.returned, add_assoc]
  lumped := by rw [h'.lumped, h.lumped, add_assoc]

/-- Steps add up, if what a step adds depends on the keys only. -/
theorem foldl {β : Type} {step : Gathered Rat Rat → β → Gathered Rat Rat}
    {share : β → Fin n → Rat} {back lump : β → Rat}
    (hstep : ∀ g b, Holds points g.table → Adds points (share b) (back b) (lump b) g (step g b))
    (items : List β) {g : Gathered Rat Rat} (hg : Holds points g.table) :
    Adds points (fun l => (items.map fun b => share b l).sum) (items.map back).sum
      (items.map lump).sum g (items.foldl step g) := by
  induction items generalizing g with
  | nil => exact refl hg
  | cons b items ih =>
    have hfirst := hstep g b hg
    have hall := hfirst.trans (ih hfirst.holds)
    simp only [List.map_cons, List.sum_cons]
    exact hall

end Gathered.Adds

/-! ### Neighbours -/

section Neighbours

variable (hdistinct : G.operator.HasDistinctColumns)
  (hcoarse : ∀ l ∈ points, labels.get l = .coarse)

include hdistinct

include hcoarse in
theorem sharedSum_eq {t : ProbingTable Rat} (ht : Holds points t) (k : Fin n) :
    sharedSum G labels G.operator.diagonal t i k = sharedMass G points i k := by
  -- the coarse columns that the table contains are those of the points
  have hterm (j : Fin n) (x : Rat) :
      (if (j = i ∨ labels.get j = .coarse ∧ t.contains j.val = true) ∧
        isNonnegative (G.operator.diagonal.get i) ≠ isNonnegative x then x else 0) =
      if j ∈ insert i points then opposed (G.operator.coefficient i i) x else 0 := by
    have hmem : (j = i ∨ labels.get j = .coarse ∧ t.contains j.val = true) ↔
        j ∈ insert i points := by
      rw [ht.contains_iff, Finset.mem_insert, and_iff_right_of_imp (hcoarse j)]
    rw [ite_and, SparseMatrix.get_diagonal, ← opposed_eq]
    exact if_congr hmem rfl rfl
  have hsum := StrengthGraph.sum_map_row hdistinct k
    (f := fun _ j x => if j ∈ insert i points then opposed (G.operator.coefficient i i) x else 0)
    fun _ j => by simp
  rw [Fintype.sum_ite_mem] at hsum
  rw [sharedMass, ← hsum]
  refine (foldl_ite_add_eq_sum _ (fun c : Connection Rat n => c.value) (G.row k) 0).trans ?_
  rw [zero_add]
  congr 1
  exact List.map_congr_left fun c _ => hterm c.column c.value

theorem backEntry_eq (k : Fin n) : backEntry G i k = G.operator.coefficient k i := by
  rw [SparseMatrix.coefficient, ← getLast?_filter_eq (hdistinct k), StrengthGraph.row_operator,
    List.filter_map, List.getLast?_map, Option.map_map]
  rfl

include hcoarse in
/-- What the fine neighbour `k` hands on, in proportion to its opposing coefficients. -/
theorem adds_distribute {g : Gathered Rat Rat} (hg : Holds points g.table) (k : Fin n) (x : Rat) :
    Gathered.Adds points (fun l => share G points i k x * opposing G k l)
      (share G points i k x * opposing G k i) 0
      g (distribute G labels G.operator.diagonal i k x g) := by
  have hratio : (if divisionGuard < Arith.magnitude
      (sharedSum G labels G.operator.diagonal g.table i k) then
        x / sharedSum G labels G.operator.diagonal g.table i k else 0) = share G points i k x := by
    rw [magnitude_eq_abs, sharedSum_eq hdistinct hcoarse hg, share]
  generalize share G points i k x = ratio at hratio ⊢
  have hopposed (y : Rat) : (if decide (isNonnegative (G.operator.diagonal.get k) ≠
      isNonnegative y) = true then y * ratio else 0) =
        ratio * opposed (G.operator.coefficient k k) y := by
    rw [SparseMatrix.get_diagonal, opposed_eq, mul_ite, mul_zero, mul_comm y]
    exact if_congr decide_eq_true_iff rfl rfl
  obtain ⟨hholds, hvalue⟩ := hg.foldl_deposit (fun c : Connection Rat n => c.column)
    (fun c => c.value * ratio) ((G.row k).filter fun c => labels.get c.column = .coarse &&
      decide (isNonnegative (G.operator.diagonal.get k) ≠ isNonnegative c.value))
  unfold distribute
  simp only [hratio]
  refine ⟨hholds, ?_, ?_, (add_zero _).symm⟩
  · intro l hl
    refine (hvalue l hl).trans ?_
    -- of the entries that are handed on, those in the column of the point count
    have hterm (c : Connection Rat n) : (if (labels.get c.column = .coarse &&
        decide (isNonnegative (G.operator.diagonal.get k) ≠ isNonnegative c.value)) = true then
          if c.column = l then c.value * ratio else 0 else 0) =
        if l = c.column then ratio * opposed (G.operator.coefficient k k) c.value else 0 := by
      rw [← hopposed]
      by_cases hcl : l = c.column
      · obtain rfl := hcl
        simp [hcoarse _ hl]
      · have hlc : ¬ c.column = l := fun heq => hcl heq.symm
        simp only [if_neg hcl, if_neg hlc, ite_self]
    have hsum := StrengthGraph.sum_map_row hdistinct k
      (f := fun _ j y => if l = j then ratio * opposed (G.operator.coefficient k k) y else 0)
      fun _ j => by simp
    rw [sum_map_filter, List.map_congr_left fun c _ => hterm c, hsum, Finset.sum_ite_eq,
      if_pos (Finset.mem_univ l), opposing]
  · rw [opposing, ← hopposed, ← backEntry_eq hdistinct]
    show (if _ then g.returned + backEntry G i k * ratio else g.returned) = _
    split_ifs
    · rfl
    · rw [add_zero]

variable (G labels points i) in
/-- The factor of what is handed on for an entry of row `i`. -/
def entryShare (strong : Bool) (k : Fin n) (x : Rat) : Rat :=
  if strong = true ∧ labels.get k = .fine then share G points i k x else 0

include hcoarse in
/-- What the off-diagonal entry `c` of row `i` adds. -/
theorem adds_gatherEntry {g : Gathered Rat Rat} (hg : Holds points g.table)
    (c : Connection Rat n) :
    Gathered.Adds points
      (fun l => entryShare G labels points i c.strong c.column c.value * opposing G c.column l +
        if c.column = l then c.value else 0)
      (entryShare G labels points i c.strong c.column c.value * opposing G c.column i)
      (if c.column ∈ points ∨ c.strong = true then 0 else c.value)
      g (gatherEntry G labels G.operator.diagonal i g c) := by
  -- what is handed on comes first
  obtain ⟨g₁, hg₁, hfirst⟩ : ∃ g₁, g₁ = (if c.strong = true ∧ labels.get c.column = .fine then
      distribute G labels G.operator.diagonal i c.column c.value g else g) ∧
      Gathered.Adds points
        (fun l => entryShare G labels points i c.strong c.column c.value * opposing G c.column l)
        (entryShare G labels points i c.strong c.column c.value * opposing G c.column i)
        0 g g₁ := by
    refine ⟨_, rfl, ?_⟩
    unfold entryShare
    by_cases hfine : c.strong = true ∧ labels.get c.column = .fine
    · simp only [if_pos hfine]
      exact adds_distribute hdistinct hcoarse hg c.column c.value
    · simp only [if_neg hfine, zero_mul]
      exact Gathered.Adds.refl hg
  -- then the entry itself is added, to the table or elsewhere
  have hsecond : Gathered.Adds points (fun l => if c.column = l then c.value else 0) 0
      (if c.column ∈ points ∨ c.strong = true then 0 else c.value) g₁
      (gatherEntry G labels G.operator.diagonal i g c) := by
    unfold gatherEntry
    dsimp only
    rw [show Storage.widen c.value = c.value from rfl,
      show Storage.narrow c.value = c.value from rfl, ← hg₁]
    by_cases hmem : c.column ∈ points
    · obtain ⟨t, hadd, hholds, hvalue⟩ := hfirst.holds.exists_add? hmem c.value
      rw [if_pos (hcoarse _ hmem), hadd, if_pos (.inl hmem)]
      exact ⟨hholds, hvalue, (add_zero _).symm, (add_zero _).symm⟩
    · have hnone : (if labels.get c.column = .coarse then
          g₁.table.add? c.column.val c.value else none) = none := by
        rw [hfirst.holds.add?_eq_none hmem, ite_self]
      have hshare : ∀ l ∈ points, g₁.table.valueOf l.val =
          g₁.table.valueOf l.val + if c.column = l then c.value else 0 := by
        intro l hl
        have hne : ¬ c.column = l := fun heq => hmem (heq ▸ hl)
        rw [if_neg hne, add_zero]
      rw [hnone]
      by_cases hstrong : c.strong = true
      · simp only [if_pos hstrong, if_pos (Or.inr hstrong)]
        exact ⟨hfirst.holds, hshare, (add_zero _).symm, (add_zero _).symm⟩
      · simp only [if_neg hstrong, if_neg (not_or.mpr ⟨hmem, hstrong⟩)]
        exact ⟨hfirst.holds, hshare, (add_zero _).symm, rfl⟩
  have hboth := hfirst.trans hsecond
  rwa [add_zero, zero_add] at hboth

/-- A sum over the off-diagonal entries of a row. -/
theorem sum_map_offDiagonal (i : Fin n) {f : Bool → Fin n → Rat → Rat}
    (hf : ∀ strong j, f strong j 0 = 0) :
    (((G.row i).filter (·.column ≠ i)).map fun c => f c.strong c.column c.value).sum =
      ∑ j with j ≠ i, f (decide (G.IsStrong i j)) j (G.operator.coefficient i j) := by
  rw [sum_map_filter, Finset.sum_filter]
  have hsum := StrengthGraph.sum_map_row hdistinct i
    (f := fun strong j x => if decide (j ≠ i) = true then f strong j x else 0)
    fun strong j => by simp [hf]
  simpa only [decide_eq_true_eq] using hsum

include hcoarse in
/-- What row `i` gathers. -/
theorem adds_gather (hi : i ∉ points) {t : ProbingTable Rat} (ht : Holds points t) :
    Gathered.Adds points (numerator G labels points i) (handedBy G labels points i i)
      (lumpedMass G points i) ⟨t, 0, 0⟩ (gather G labels G.operator.diagonal i t) := by
  have hshare (l : Fin n) : (((G.row i).filter (·.column ≠ i)).map fun c =>
      entryShare G labels points i c.strong c.column c.value * opposing G c.column l).sum =
        handedBy G labels points i l := by
    rw [sum_map_offDiagonal hdistinct i (f := fun strong j x =>
      entryShare G labels points i strong j x * opposing G j l)
      fun strong j => by simp [entryShare, share]]
    rw [handedBy, strongFine, Finset.sum_filter, Finset.sum_filter]
    apply Finset.sum_congr rfl
    intro j _
    simp only [entryShare, decide_eq_true_eq, ite_and, ite_mul, zero_mul]
  have hown (l : Fin n) (hl : l ≠ i) : (((G.row i).filter (·.column ≠ i)).map fun c =>
      if c.column = l then c.value else 0).sum = G.operator.coefficient i l := by
    rw [sum_map_offDiagonal hdistinct i (f := fun _ j x => if j = l then x else 0)
      fun _ _ => ite_self 0]
    rw [Finset.sum_ite_eq', if_pos (by simpa using hl)]
  have hlump : (((G.row i).filter (·.column ≠ i)).map fun c =>
      if c.column ∈ points ∨ c.strong = true then 0 else c.value).sum = lumpedMass G points i := by
    rw [sum_map_offDiagonal hdistinct i (f := fun strong j x =>
      if j ∈ points ∨ strong = true then 0 else x) fun _ _ => ite_self 0]
    rw [lumpedMass, Finset.sum_filter, Finset.sum_filter]
    apply Finset.sum_congr rfl
    intro j _
    grind
  have hfold := Gathered.Adds.foldl (fun g c hg => adds_gatherEntry (i := i) hdistinct hcoarse hg c)
    ((G.row i).filter (·.column ≠ i)) (g := ⟨t, 0, 0⟩) ht
  rw [hlump, hshare] at hfold
  refine ⟨hfold.holds, ?_, hfold.returned, hfold.lumped⟩
  intro l hl
  have hli : l ≠ i := fun heq => hi (heq ▸ hl)
  rw [numerator, add_comm (G.operator.coefficient i l), ← hshare, ← hown l hli, ← List.sum_map_add]
  exact hfold.numerator l hl

end Neighbours

/-! ## Weights -/

variable (G labels) in
/-- The factor from numerators to weights. -/
def weightFactor (points : Finset (Fin n)) (i : Fin n) : Rat :=
  if divisionGuard < |denominator G labels points i| then -1 / denominator G labels points i else 0

variable (G labels) in
/-- The points that point `i` reaches. -/
def reachSet (firstOnly : Bool) (i : Fin n) : Finset (Fin n) :=
  (reachedPoints G labels firstOnly i).toFinset

variable {firstOnly : Bool}

theorem mem_reachSet {l : Fin n} :
    l ∈ reachSet G labels firstOnly i ↔ Reaches G labels firstOnly i l := by
  rw [reachSet, List.mem_toFinset, mem_reachedPoints]

theorem holds_reachSet {t : ProbingTable Rat} (ht : t.IsValid)
    (h : t.storedKeys = (reachedKeys G labels firstOnly i).toFinset) :
    Holds (reachSet G labels firstOnly i) t := by
  refine ⟨ht, ?_⟩
  rw [h]
  ext key
  rw [List.mem_toFinset, mem_reachedKeys, Finset.mem_image, List.mem_map]
  simp only [reachSet, List.mem_toFinset]

/-- The weights of a row: its numerators by its denominator, and zero if that is too small. -/
theorem weights_eq (hdistinct : G.operator.HasDistinctColumns) (hi : labels.get i ≠ .coarse)
    {t : ProbingTable Rat} (ht : t.IsValid)
    (h : t.storedKeys = (reachedKeys G labels firstOnly i).toFinset) (hblank : t.IsBlank 0) :
    weights G labels G.operator.diagonal i t = (reachedPoints G labels firstOnly i).map fun l =>
      ⟨l, weightFactor G labels (reachSet G labels firstOnly i) i *
        numerator G labels (reachSet G labels firstOnly i) i l⟩ := by
  have hholds := holds_reachSet ht h
  have hcoarse : ∀ l ∈ reachSet G labels firstOnly i, labels.get l = .coarse :=
    fun l hl => (mem_reachSet.mp hl).coarse
  have hgather := adds_gather hdistinct hcoarse (fun hmem => hi (hcoarse i hmem)) hholds
  have hsame := sameKeys_gather G labels G.operator.diagonal i t
  unfold weights
  generalize gather G labels G.operator.diagonal i t = g at hgather hsame
  have hfactor : g.factor (G.operator.diagonal.get i) =
      weightFactor G labels (reachSet G labels firstOnly i) i := by
    have hdenominator : g.lumped + g.returned + G.operator.diagonal.get i =
        denominator G labels (reachSet G labels firstOnly i) i := by
      rw [hgather.lumped, hgather.returned, zero_add, zero_add, SparseMatrix.get_diagonal,
        denominator]
    rw [weightFactor, ← hdenominator, ← magnitude_eq_abs]
    rfl
  have hentries : g.table.sortedEntries = (reachedPoints G labels firstOnly i).map fun l =>
      ((l.val : Int), numerator G labels (reachSet G labels firstOnly i) i l) := by
    rw [hgather.holds.isValid.sortedEntries_eq, hsame.sortedKeys_eq,
      sortedKeys_eq_map_reachedPoints ht h, List.map_map]
    · apply List.map_congr_left
      intro l hl
      have hnumerator := hgather.numerator l (List.mem_toFinset.mpr hl)
      rw [hblank.valueOf_eq_zero, zero_add] at hnumerator
      rw [Function.comp_apply, hnumerator]
    · intro key hkey
      rw [hsame.storedKeys_eq, h, List.mem_toFinset] at hkey
      exact ne_reservedKey_of_mem_reachedKeys hkey
  dsimp only
  rw [hentries, hfactor, List.filterMap_map, ← List.filterMap_eq_map]
  apply List.filterMap_congr
  intro l _
  rw [Function.comp_apply, columnOf?_val]
  rfl

end Steps

end Extended

end Multigrid
