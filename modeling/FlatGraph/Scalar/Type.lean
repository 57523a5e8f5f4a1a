/-!
# Scalar types

The types a schema can declare for a leaf of an object graph. An enumeration is declared by a name
and the names of its variants; all other scalar types are built in.
-/

namespace FlatGraph

/-- A declared enumeration. -/
structure EnumType where
  name : String
  variants : List String
deriving DecidableEq, Repr

/-- Whether the enumeration declares a variant of this very name. -/
def EnumType.declares (e : EnumType) (variant : String) : Bool := e.variants.contains variant

/-- The widths of integers. -/
inductive Width where
  | w8 | w16 | w32 | w64
deriving DecidableEq, Repr

namespace Width

-- Powers are those of `Nat.pow` and `Int.pow`.
attribute [local instance (2000)] instPowNat

/-- The number of bits. -/
def bits : Width → Nat
  | .w8 => 8
  | .w16 => 16
  | .w32 => 32
  | .w64 => 64

/-- The least integer of the width. -/
def least (w : Width) : Int := -2 ^ (w.bits - 1)

/-- The greatest integer of the width. -/
def greatest (w : Width) : Int := 2 ^ (w.bits - 1) - 1

/-- Whether an integer has the width. -/
def holds (w : Width) (n : Int) : Bool := w.least ≤ n && n ≤ w.greatest

end Width

/-- The declared type of a leaf. -/
inductive ScalarType where
  | text
  | int (width : Width)
  | float32
  | float64
  | bool
  | date
  | bytes
  | enum (type : EnumType)
deriving DecidableEq, Repr

namespace ScalarType

/-- The name of a type; for an enumeration, its own. -/
def name : ScalarType → String
  | .text => "text"
  | .int .w8 => "int8"
  | .int .w16 => "int16"
  | .int .w32 => "int32"
  | .int .w64 => "int64"
  | .float32 => "float32"
  | .float64 => "float64"
  | .bool => "bool"
  | .date => "date"
  | .bytes => "bytes"
  | .enum e => e.name

/-- The types that need no declaration. -/
def builtins : List ScalarType :=
  [.text, .int .w8, .int .w16, .int .w32, .int .w64, .float32, .float64, .bool, .date, .bytes]

/-- The built-in type with the given name. In schemas, `string` is another name of `text`. -/
def builtin? (name : String) : Option ScalarType :=
  if name = "string" then some .text else builtins.find? (·.name == name)

end ScalarType

end FlatGraph
