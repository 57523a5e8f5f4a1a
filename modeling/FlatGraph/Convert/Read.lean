import FlatGraph.Model.Registry
import FlatGraph.Record
import FlatGraph.Scalar.Decode
import FlatGraph.Traced

/-!
# From records to objects

Reading goes through the properties of a type and looks up for each one what the record holds at
its path. An object inside another is read from the entries below its path; the type hint there
names its type, and without one it is of the declared type. References are left to a resolver, and
the trace of a read is the list of the references that were resolved.

The objects inside an object have longer paths, so that they nest no deeper than the longest key
is long. Only a type that holds itself under an empty name goes on without end (`Error.endless`).

* `Registry.read` is the whole of it, with a bound on the depth that only an endless read exceeds.
-/

namespace FlatGraph

/-- A reference from a record to another entity, with the type that is declared for it. -/
structure Reference where
  id : String
  keyspace : String
  type : String
deriving DecidableEq, Repr

/-- What loads the entities that records refer to. -/
abbrev Resolver := Reference → Except Error (Option Object)

/-- A read of a record, with the references that it resolved. -/
abbrev Reading := Traced Reference Error

/-- A resolver that finds nothing. -/
def Resolver.nothing : Resolver := fun _ => .ok none

namespace Read

open Traced (mark fail)

/-! ## Leaves -/

/-- The value of stored bytes of a declared type. -/
def decode (path : String) (raw : Bytes) (type : ScalarType) : Except Error (Option Value) :=
  (type.decode raw).mapError (.conversion path (Utf8.lossy raw))

/-- The value of the key text of a map entry. -/
def decodeKey (path text : String) (type : ScalarType) : Except Error (Option Value) :=
  decode path (Utf8.encode text) type

/-- The keyspace and the id that a stored pointer names. -/
def pointer (path : String) (raw : Bytes) : Except Error (String × String) :=
  match Utf8.decode raw with
  | .ok s =>
    match Path.splitPointer? s with
    | some p => .ok p
    | none => .error (.invalidReference path s)
  | .error _ => .error (.invalidReference path (Utf8.lossy raw))

/-- The entity that a stored pointer names, if it can be found. -/
def referent (resolve : Resolver) (path type : String) (raw : Bytes) : Reading (Option Value) := do
  let (keyspace, id) ← pointer path raw
  let reference : Reference := ⟨id, keyspace, type⟩
  mark reference
  pure ((← resolve reference).map Object.toValue)

/-- The value of a leaf of the declared type: a scalar or a reference. -/
def leaf (resolve : Resolver) (path : String) (raw : Bytes) : TypeRef → Reading (Option Value)
  | .scalar type => decode path raw type
  | .entity type => referent resolve path type raw

/-! ## Properties -/

/-- A reader of the object at a path, of a declared type, from the entries below the path. -/
abbrev Nested := String → String → Entries → Reading Object

/-- The object below a path, if there are entries. -/
def inner (nested : Nested) (path type : String) (es : Entries) : Reading (Option Value) := do
  let below := es.extract path
  if below.size = 0 then pure none else pure (some (← nested path type below).toValue)

/-- The place of an element in a list: its index. Elements whose key text is no index come after
all others. -/
def place (key start : String) : Nat :=
  let index? := do Number.readNat Number.greatestWord (← Path.elementKey? key start).toList
  index?.getD Number.greatestWord

/-- The values of elements in the order of their places. -/
def inOrder (found : List (Nat × Value)) : List Value :=
  (found.mergeSort fun a b => a.1 ≤ b.1).map (·.2)

/-- The elements of a list with their places, in the order of the record. -/
def elements (resolve : Resolver) (nested : Nested) (path : String) (type : TypeRef)
    (reference : Bool) (es : Entries) : Reading (List (Option (Nat × Value))) :=
  let start := Path.elementStart path
  match type, reference with
  | .entity type, false =>
    (es.elementPaths start).mapM fun p => do
      pure ((← inner nested p type es).map (place p start, ·))
  | type, _ =>
    (es.below start).mapM fun e => do
      pure ((← leaf resolve e.1 e.2 type).map (place e.1 start, ·))

/-- The value of a map entry, if its key stands for a value. -/
def entryValue (path : String) (key? : Option String) (keyType : ScalarType)
    (value : Reading (Option Value)) : Reading (Option (Value × Value)) :=
  match key? with
  | none => pure none
  | some text => do
    match ← decodeKey path text keyType with
    | none => pure none
    | some key => pure ((← value).map (key, ·))

/-- The entries of a map, in the order of the record. -/
def mapEntries (resolve : Resolver) (nested : Nested) (path : String) (keyType : ScalarType)
    (type : TypeRef) (reference : Bool) (es : Entries) : Reading (List (Option (Value × Value))) :=
  let start := Path.elementStart path
  match type, reference with
  | .entity type, false =>
    (es.elementPaths start).mapM fun p =>
      entryValue p (Path.elementKey? p start) keyType (inner nested p type es)
  | type, _ =>
    (es.below start).mapM fun e =>
      entryValue e.1 (Path.leafKey? e.1 start) keyType (leaf resolve e.1 e.2 type)

/-- The value of a property. Without entries it has none, and neither does a list or a map without
elements. -/
def property (resolve : Resolver) (nested : Nested) (path : String) (p : Property)
    (es : Entries) : Reading (Option Value) :=
  match p.shape with
  | .single (.entity type) =>
    if p.isReference then
      match es.get? path with
      | some raw => referent resolve path type raw
      | none => pure none
    else inner nested path type es
  | .single (.scalar type) =>
    match es.get? path with
    | some raw => decode path raw type
    | none => pure none
  | .list type => do
    let found := (← elements resolve nested path type p.isReference es).filterMap id
    pure (if found.isEmpty then none else some (.list (inOrder found)))
  | .map key type => do
    let found := (← mapEntries resolve nested path key type p.isReference es).filterMap id
    pure (if found.isEmpty then none else some (.map found))

/-! ## Objects -/

/-- The type of the object at a path: the one that the type hint of its entries names, which has
to be usable where `declared` is, or else the declared one. -/
def resolveType (r : Registry) (path declared : String) (es : Entries) :
    Except Error EntityType :=
  match es.get? Path.hint with
  | none => r.get declared
  | some raw =>
    match Utf8.decode raw with
    | .error _ => .error (.typeResolution (Utf8.lossy raw) (Path.hintOf path))
    | .ok type =>
      match r.find? type with
      | some t =>
        if r.isAssignable type declared then .ok t
        else .error (.typeResolution type (Path.hintOf path))
      | none => .error (.typeResolution type (Path.hintOf path))

/-- The properties in the order in which they are read: first those that are needed to create an
object. -/
def order (t : EntityType) : List Property :=
  t.properties.filter (·.isConstructorBound) ++ t.properties.filter (!·.isConstructorBound)

/-- The object with the values that were found for its fields. -/
def assemble (type : String) (found : List (String × Option Value)) : Object :=
  found.foldl (fun o f => match f.2 with
    | some v => o.set f.1 v
    | none => o) ⟨type, []⟩

/-- Reads the object at a path, inside which there may be objects `depth - 1` deep. -/
def object (r : Registry) (resolve : Resolver) : Nat → Nested
  | 0, path, declared, _ => fail (.endless declared path)
  | depth + 1, path, declared, es => do
    let t ← resolveType r path declared es
    let found ← (order t).mapM fun p => do
      pure (p.name, ← property resolve (object r resolve depth) (Path.join path p.name) p es)
    pure (assemble t.name found)

end Read

namespace Entries

/-- The length of the longest key. -/
def longestKey (es : Entries) : Nat := (es.toList.map (·.1.length)).foldl max 0

end Entries

namespace Registry

/-- A depth that only an endless read exceeds: once for each type under empty names, and once for
each length of a path. -/
def depthFor (r : Registry) (es : Entries) : Nat := r.size + es.longestKey + 2

/-- Reads an object of a type, or of one that can stand for it. Without entries there is none. -/
def read (r : Registry) (resolve : Resolver) (type : String) (es : Entries) :
    Reading (Option Object) := do
  if es.size = 0 then pure none
  else pure (some (← Read.object r resolve (r.depthFor es) "" type es))

end Registry

end FlatGraph
