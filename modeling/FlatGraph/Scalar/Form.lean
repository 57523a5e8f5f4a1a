import FlatGraph.Error
import FlatGraph.Json.Form

/-!
# The JSON form of scalar types

A built-in type is given by its name, an enumeration by an object that declares it:

    {"enum": {"name": "Gender", "variants": ["MALE", "FEMALE"]}}
-/

namespace FlatGraph

open Json (Tree)
open Json.Tree (record? required? text? list? choice?)

namespace EnumType

/-- Reads an enumeration. -/
def ofTree? (t : Tree) : Option EnumType := do
  let ms ← t.record? ["name", "variants"]
  pure ⟨← required? ms "name" text?, ← required? ms "variants" (list? text?)⟩

/-- The JSON form of an enumeration. -/
def toJson (e : EnumType) : Json :=
  .ofMembers [("name", .string e.name), ("variants", .array (e.variants.map .string))]

end EnumType

namespace ScalarType

/-- Reads a scalar type. -/
def ofTree? : Tree → Option ScalarType
  | .object [(some "enum", t)] => .enum <$> EnumType.ofTree? t
  | t => choice? (builtins.map fun type => (type.name, type)) t

/-- Reads the text of a scalar type. -/
def ofText (s : String) : Except Error ScalarType :=
  match Tree.ofText? s >>= ofTree? with
  | some type => .ok type
  | none => .error .json

/-- The JSON form of a scalar type. -/
def toJson : ScalarType → Json
  | .enum e => .ofMembers [("enum", e.toJson)]
  | type => .string type.name

end ScalarType

end FlatGraph
