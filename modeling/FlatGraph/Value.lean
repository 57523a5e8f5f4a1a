import FlatGraph.Bytes
import FlatGraph.Calendar.Instant
import FlatGraph.Number.Floating

/-!
# Values and objects

The object graphs that are stored and read back. A value is a scalar, a list, a map whose keys may
be any values, an object, or the explicit absence of a value (`null`).

An object has a type name and fields in the order in which they were first set. Reading a field
does not tell an explicit null from a field that was never set, and neither does equality: objects
are equal if they have the same type and the same non-null fields, in whatever order.
-/

namespace FlatGraph

open Number (Floating binary64)
open Calendar (Instant)

/-- A value of an object graph. -/
inductive Value where
  | null
  | bool (b : Bool)
  | integer (n : Int64)
  | float (x : Floating binary64)
  | text (s : String)
  | bytes (b : Bytes)
  | enum (variant : String)
  | date (t : Instant)
  | list (items : List Value)
  | map (entries : List (Value × Value))
  | object (type : String) (fields : List (String × Value))
deriving Repr

/-- A typed bag of fields. -/
structure Object where
  type : String
  fields : List (String × Value) := []
deriving Repr

/-- The object as a value. -/
def Object.toValue (o : Object) : Value := .object o.type o.fields

/-! ## Kinds -/

/-- The kinds of values. -/
inductive Kind where
  | null | bool | integer | float | text | bytes | enum | date | list | map | object
deriving DecidableEq, Repr

/-- The name of a kind. -/
def Kind.name : Kind → String
  | .null => "null"
  | .bool => "bool"
  | .integer => "integer"
  | .float => "float"
  | .text => "text"
  | .bytes => "bytes"
  | .enum => "enum"
  | .date => "date"
  | .list => "list"
  | .map => "map"
  | .object => "object"

/-- Whether values of the kind are leaves that hold something. -/
def Kind.isScalar : Kind → Bool
  | .null | .list | .map | .object => false
  | _ => true

namespace Value

/-- The kind of a value. -/
def kind : Value → Kind
  | .null => .null
  | .bool _ => .bool
  | .integer _ => .integer
  | .float _ => .float
  | .text _ => .text
  | .bytes _ => .bytes
  | .enum _ => .enum
  | .date _ => .date
  | .list _ => .list
  | .map _ => .map
  | .object .. => .object

/-- Whether the value is a leaf that holds something. -/
def isScalar (v : Value) : Bool := v.kind.isScalar

/-- Whether the value is the absent one. -/
def isNull : Value → Bool
  | .null => true
  | _ => false

/-- The truth value that a value holds. -/
def asBool? : Value → Option Bool
  | .bool b => some b
  | _ => none

/-- The integer that a value holds. -/
def asInteger? : Value → Option Int64
  | .integer n => some n
  | _ => none

/-- The text that a value holds. -/
def asText? : Value → Option String
  | .text s => some s
  | _ => none

/-- The items of a list. -/
def asList? : Value → Option (List Value)
  | .list items => some items
  | _ => none

/-- The entries of a map, in their order. -/
def asMap? : Value → Option (List (Value × Value))
  | .map entries => some entries
  | _ => none

/-- The object that a value is. -/
def asObject? : Value → Option Object
  | .object type fields => some ⟨type, fields⟩
  | _ => none

/-- The value of a map at a text key; of several entries with the key the first one counts. -/
def get? (v : Value) (key : String) : Option Value := do
  let entries ← v.asMap?
  let entry ← entries.find? fun e => e.1.asText? == some key
  pure entry.2

end Value

/-! ## Fields -/

namespace Fields

/-- The value that a field holds; an explicit null is no value. -/
def get? (fields : List (String × Value)) (name : String) : Option Value :=
  (fields.lookup name).filter (!·.isNull)

/-- Sets a field, in its place if it is there and at the end if it is not. -/
def set (name : String) (value : Value) : List (String × Value) → List (String × Value)
  | [] => [(name, value)]
  | field :: fields =>
    if field.1 = name then (name, value) :: fields else field :: set name value fields

/-- The number of fields that hold a value. -/
def count (fields : List (String × Value)) : Nat := fields.countP (!·.2.isNull)

end Fields

namespace Object

/-- The value that a field holds; an explicit null is no value. -/
def get? (o : Object) (name : String) : Option Value := Fields.get? o.fields name

/-- Sets a field, in its place if it is there and at the end if it is not. -/
def set (o : Object) (name : String) (value : Value) : Object :=
  { o with fields := Fields.set name value o.fields }

/-- Takes a field out of the object. -/
def erase (o : Object) (name : String) : Object :=
  { o with fields := o.fields.eraseP (·.1 == name) }

/-- The number of fields that hold a value. -/
def size (o : Object) : Nat := Fields.count o.fields

end Object

/-! ## Equality -/

mutual

/-- Equality of values. A number that is none equals nothing, the two zeros are equal, and objects
are compared by the fields that hold a value. -/
def Value.equal : Value → Value → Bool
  | .null, .null => true
  | .bool a, .bool b => a == b
  | .integer a, .integer b => a == b
  | .float a, .float b => a.equal b
  | .text a, .text b => a == b
  | .bytes a, .bytes b => a == b
  | .enum a, .enum b => a == b
  | .date a, .date b => a == b
  | .list as, .list bs => Value.equalItems as bs
  | .map as, .map bs => Value.equalEntries as bs
  | .object a as, .object b bs =>
    a == b && Fields.count as == Fields.count bs && Value.fieldsWithin as bs
  | _, _ => false
termination_by structural v => v

/-- Equality item by item. -/
def Value.equalItems : List Value → List Value → Bool
  | [], [] => true
  | a :: as, b :: bs => a.equal b && Value.equalItems as bs
  | _, _ => false
termination_by structural as => as

/-- Equality entry by entry. -/
def Value.equalEntries : List (Value × Value) → List (Value × Value) → Bool
  | [], [] => true
  | (k, v) :: as, (l, w) :: bs => k.equal l && v.equal w && Value.equalEntries as bs
  | _, _ => false
termination_by structural as => as

/-- Whether each field that holds a value holds an equal one in the second list. -/
def Value.fieldsWithin : List (String × Value) → List (String × Value) → Bool
  | [], _ => true
  | (name, v) :: as, bs =>
    (v.isNull || match Fields.get? bs name with
      | some w => v.equal w
      | none => false) && Value.fieldsWithin as bs
termination_by structural as => as

end

/-- Equality of objects: the same type, and equal values in the same fields. -/
def Object.equal (a b : Object) : Bool := a.toValue.equal b.toValue

end FlatGraph
