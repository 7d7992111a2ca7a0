/-!
# Values under labels

A label stands for at most one value.  Labels keep the order in which they were first used, also
when their value is replaced.

## Main definitions

* `Labelled`: values under labels, in the order in which the labels were first used
* `Labelled.find?`, `Labelled.insert`: reading and writing the value under a label
-/

namespace Multigrid

/-- Values under labels, in the order in which the labels were first used. -/
abbrev Labelled (α : Type) := List (String × α)

namespace Labelled

variable {α : Type}

/-- The value under a label. -/
def find? (values : Labelled α) (label : String) : Option α := values.lookup label

/-- Replaces the value under a label, or adds a new label at the end. -/
def insert (values : Labelled α) (label : String) (value : α) : Labelled α :=
  if values.any (·.1 == label) then
    values.map fun (l, v) => if l == label then (l, value) else (l, v)
  else
    values ++ [(label, value)]

end Labelled

end Multigrid
