import FlatGraph.Number.Floating
import FlatGraph.Sorted

/-!
# JSON values

JSON data as documents hold it. The members of an object have distinct names. Those that are read,
and those that `Json.ofMembers` puts together, are sorted by their names, in the order of their
UTF-8 bytes, which is also the order of their code points; a report may give them an order of its
own.
-/

namespace FlatGraph

open FlatGraph.Number (Floating binary64)

/-- A number: an integer of 64 bits, signed or not, stays one; any other number is double
precision. -/
inductive Json.Number where
  | integer (n : Int)
  | floating (x : Floating binary64)
deriving DecidableEq, Repr

/-- A JSON value. -/
inductive Json where
  | null
  | bool (b : Bool)
  | number (n : Json.Number)
  | string (s : String)
  | array (items : List Json)
  | object (members : List (String × Json))
deriving Repr

namespace Json

/-- The kinds of JSON values. -/
inductive Kind where
  | null | bool | number | string | array | object
deriving DecidableEq, Repr

/-- The name of a kind. -/
def Kind.name : Kind → String
  | .null => "null"
  | .bool => "boolean"
  | .number => "number"
  | .string => "string"
  | .array => "array"
  | .object => "object"

/-- The kind of a value. -/
def kind : Json → Kind
  | .null => .null
  | .bool _ => .bool
  | .number _ => .number
  | .string _ => .string
  | .array _ => .array
  | .object _ => .object

/-- The object of the given members, of which the last of each name counts. -/
def ofMembers (members : List (String × Json)) : Json := .object (Sorted.ofEntries members)

end Json

end FlatGraph
