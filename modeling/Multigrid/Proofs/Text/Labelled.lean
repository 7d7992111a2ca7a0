import Multigrid.Text.Labelled
import Mathlib

/-!
# Reading values under labels

What is read under a label after a value was written is that value, if it was written under this
label, and what was read before under any other.  The order of the labels does not matter for
that.

## Main results

* `Labelled.find?_insert`: reading after writing
-/

namespace Multigrid

namespace Labelled

variable {α : Type}

theorem find?_cons (l : String) (v : α) (rest : Labelled α) (label : String) :
    find? ((l, v) :: rest) label = if label = l then some v else find? rest label := by
  by_cases h : label = l
  · simp [find?, h]
  · have hne : (label == l) = false := beq_false_of_ne h
    simp [find?, List.lookup, hne, h]

theorem find?_append_singleton (values : Labelled α) (l : String) (v : α) (label : String) :
    find? (values ++ [(l, v)]) label =
      (values.find? label).or (if label = l then some v else none) := by
  rw [find?, List.lookup_append]
  exact congrArg _ (find?_cons l v [] label)

theorem find?_replaced (values : Labelled α) (l : String) (v : α) (label : String) :
    find? (values.map fun (l', v') => if l' = l then (l', v) else (l', v')) label =
      if label = l then (values.find? label).map fun _ => v else values.find? label := by
  induction values with
  | nil => simp [find?]
  | cons entry rest ih =>
    obtain ⟨l', v'⟩ := entry
    rw [List.map_cons, find?_cons]
    by_cases hl : l' = l
    · subst hl
      rw [if_pos rfl, find?_cons, ih]
      by_cases h : label = l' <;> simp [h]
    · rw [if_neg hl, find?_cons, ih]
      by_cases h : label = l'
      · simp [h, hl]
      · simp [h]

theorem isSome_find?_iff {values : Labelled α} {label : String} :
    (values.find? label).isSome = true ↔ ∃ entry ∈ values, entry.1 = label := by
  rw [find?, List.lookup_isSome_iff]
  simp only [beq_iff_eq, eq_comm (a := label)]

/-- A value is found under the label that it was inserted under, and under no other. -/
theorem find?_insert (values : Labelled α) (l : String) (v : α) (label : String) :
    (values.insert l v).find? label = if label = l then some v else values.find? label := by
  simp only [insert, List.any_eq_true, beq_iff_eq]
  -- the value under `l` is replaced if there is one, and `v` comes last if there is none
  split_ifs with hused hlabel hlabel
  · obtain ⟨v', hv'⟩ := Option.isSome_iff_exists.mp (isSome_find?_iff.mpr hused)
    rw [find?_replaced, if_pos hlabel, hlabel, hv']
    rfl
  · rw [find?_replaced, if_neg hlabel]
  · have hnone := Option.not_isSome_iff_eq_none.mp (mt isSome_find?_iff.mp hused)
    rw [find?_append_singleton, hlabel, hnone, if_pos rfl]
    rfl
  · rw [find?_append_singleton, if_neg hlabel, Option.or_none]

end Labelled

end Multigrid
