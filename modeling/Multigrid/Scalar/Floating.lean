/-!
# Floating-point formats of entries

The levels of a hierarchy have floating-point operators.  An operator of integers is converted
first, to the smallest format that holds every value of its type; 64-bit integers are rounded.

## Main definitions

* `Floating S V`: entries of type `S` converted to the format `V`
-/

namespace Multigrid

/-- The floating-point format `V` of entries of type `S`. -/
class Floating (S : Type) (V : outParam Type) where
  /-- The converted entry. -/
  toFloating : S → V

instance : Floating Float Float := ⟨id⟩

instance : Floating Float32 Float32 := ⟨id⟩

/-- Exact arithmetic. -/
instance : Floating Rat Rat := ⟨id⟩

instance : Floating Int64 Float := ⟨fun x => Float.ofInt x.toInt⟩

instance : Floating Int32 Float := ⟨fun x => Float.ofInt x.toInt⟩

instance : Floating Int16 Float32 := ⟨fun x => Float32.ofInt x.toInt⟩

end Multigrid
