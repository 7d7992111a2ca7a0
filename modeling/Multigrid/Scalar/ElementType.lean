import Multigrid.Fault

/-!
# Element types

The type of a matrix' entries decides the type of the weights that are computed from it.  Weights
are floating-point numbers of at least single precision, and of double precision if the entries
are no floating-point numbers.  Operators of two types are multiplied in a common one.

## Main definitions

* `ElementType`: the types of entries
* `ElementType.weightType`: the type of the weights
* `ElementType.common`: the type of products
* `ElementType.ofName`, `ElementType.name`: the types by name
* `ElementType.isStorable`: the types that the entries of a matrix may have
-/

namespace Multigrid

/-- The types of entries. -/
inductive ElementType where
  /-- Floating-point numbers of a number of bits. -/
  | floating (bits : Nat)
  /-- Integers of a number of bits. -/
  | integer (bits : Nat)
  /-- Anything else. -/
  | other (name : String)
  deriving DecidableEq

namespace ElementType

/-- The type of the weights computed from entries of a type. -/
def weightType : ElementType → ElementType
  | floating bits => floating (max bits 32)
  | integer _ => floating 64
  | other _ => floating 64

/-- The type in which entries of two types are multiplied.  Of two types of one kind it is the wider
one.  An integer meets a floating-point number in a floating-point type of twice as many bits as
the integer has, up to 64, or in a wider one if the other factor has that.  Anything else takes
its own type along. -/
def common : ElementType → ElementType → ElementType
  | floating a, floating b => floating (max a b)
  | floating a, integer b => floating (max a (min (2 * b) 64))
  | integer a, floating b => floating (max (min (2 * a) 64) b)
  | integer a, integer b => integer (max a b)
  | other name, _ => other name
  | _, other name => other name

/-- The name of a type. -/
def name : ElementType → String
  | floating bits => "float" ++ toString bits
  | integer bits => "int" ++ toString bits
  | other name => name

/-- The spellings of a type: its names, and its codes, which may follow a mark of the byte order. -/
structure Spelling where
  /-- The type. -/
  type : ElementType
  /-- The names. -/
  names : List String
  /-- The codes. -/
  codes : List String

/-- The spellings of all types. -/
def spellings : List Spelling := [
  ⟨floating 16, ["float16", "half"], ["f2", "e"]⟩,
  ⟨floating 32, ["float32", "single"], ["f4", "f"]⟩,
  ⟨floating 64, ["float64", "double", "float"], ["f8", "d"]⟩,
  ⟨floating 128, ["float128", "longdouble"], ["f16", "g"]⟩,
  ⟨integer 8, ["int8", "byte"], ["i1", "b"]⟩,
  ⟨integer 16, ["int16", "short"], ["i2", "h"]⟩,
  ⟨integer 32, ["int32", "intc"], ["i4", "i"]⟩,
  ⟨integer 64, ["int64", "int", "int_", "intp", "long", "longlong"], ["i8", "l", "q", "p", "n"]⟩,
  ⟨other "uint8", ["uint8", "ubyte"], ["u1", "B"]⟩,
  ⟨other "uint16", ["uint16", "ushort"], ["u2", "H"]⟩,
  ⟨other "uint32", ["uint32", "uintc"], ["u4", "I"]⟩,
  ⟨other "uint64", ["uint64", "uint", "uintp", "ulong", "ulonglong"], ["u8", "L", "Q", "P", "N"]⟩,
  ⟨other "bool", ["bool", "bool_"], ["b1", "?"]⟩,
  ⟨other "complex64", ["complex64", "csingle"], ["c8", "F"]⟩,
  ⟨other "complex128", ["complex128", "cdouble", "complex"], ["c16", "D"]⟩,
  ⟨other "complex256", ["complex256", "clongdouble"], ["c32", "G"]⟩,
  ⟨other "object", ["object", "object_"], ["O8", "O"]⟩,
  ⟨other "str", ["str", "str_"], ["U"]⟩,
  ⟨other "bytes", ["bytes", "bytes_"], ["S", "c"]⟩,
  ⟨other "void", ["void"], ["V"]⟩,
  ⟨other "datetime64", ["datetime64"], ["M8", "M"]⟩,
  ⟨other "timedelta64", ["timedelta64"], ["m8", "m"]⟩]

/-- Can the entries of a matrix have this type?  They are numbers or flags, and a floating-point
number has at least single precision. -/
def isStorable : ElementType → Bool
  | floating bits => 32 ≤ bits
  | integer _ => true
  | other name => name ∉ ["object", "str", "bytes", "void", "datetime64", "timedelta64"]

/-- The type of texts, bytes or anything else of a fixed length, such as `U5`. -/
def sized? : List Char → Option ElementType
  | kind :: length =>
    if !length.isEmpty && length.all Char.isDigit then
      match kind with
      | 'U' => some (other "str")
      | 'S' => some (other "bytes")
      | 'V' => some (other "void")
      | _ => none
    else none
  | [] => none

/-- The type of a code. -/
def ofCode? (code : String) : Option ElementType :=
  ((spellings.find? fun s => code ∈ s.codes).map Spelling.type).or (sized? code.toList)

/-- The type of a name or of a code. -/
def ofName? (name : String) : Option ElementType :=
  ((spellings.find? fun s => name ∈ s.names).map Spelling.type).or (ofCode? name)

/-- Does a value of the type take a single byte? -/
def isByte (type : ElementType) : Bool := type ∈ [integer 8, other "uint8", other "bool"]

/-- The type that a text spells, and whether its bytes are marked to stand in the foreign order. -/
def ofText? (text : String) : Option ElementType × Bool :=
  match text.toList with
  | '>' :: code => (ofCode? (String.ofList code), true)
  | '<' :: code | '=' :: code | '|' :: code => (ofCode? (String.ofList code), false)
  | _ => (ofName? text, false)

/-- The type of a name, for entries of a matrix.  Only bytes may be marked for the foreign order. -/
def ofName {R : Type} (name : String) : Except (Fault R) ElementType :=
  match ofText? name with
  | (none, _) => .error (.unknownType name)
  | (some type, isForeign) =>
    if type.isStorable && (!isForeign || type.isByte) then .ok type
    else .error (.unsupportedType name)

end ElementType

end Multigrid
