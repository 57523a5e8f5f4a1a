import FlatGraph.Model.Registry
import FlatGraph.Scalar.Form

/-!
# Schemas

A schema declares enumerations and entity types in JSON. Types of properties are given by name: a
built-in scalar type, or else an enumeration or an entity type of the schema.

    {"enums": [{"name": "Gender", "variants": ["MALE", "FEMALE"]}],
     "entities": [{"name": "Person", "keyspace": "persons", "properties": [
       {"name": "id", "type": "text", "id": true},
       {"name": "nicknames", "type": "text", "shape": "list"}]}]}

Entity types may be declared in any order. `Registry.ofSchema` registers them in rounds, in each
of which those come in whose parents are there.
-/

namespace FlatGraph

namespace Schema

/-- The shape of a declared property. -/
inductive Shape where
  | single
  | list
  | map
deriving DecidableEq, Repr

/-- A declared property. -/
structure Property where
  name : String
  type : String
  shape : Shape := .single
  key : Option String := none
  id : Bool := false
  reference : Bool := false
  indexed : Bool := false
  constructor : Bool := false
deriving DecidableEq, Repr

/-- A declared entity type. -/
structure Entity where
  name : String
  keyspace : Option String := none
  parent : Option String := none
  properties : List Property := []
deriving DecidableEq, Repr

end Schema

/-- A schema. -/
structure Schema where
  enums : List EnumType := []
  entities : List Schema.Entity := []
deriving DecidableEq, Repr

namespace Schema

/-! ## Reading -/

open Json (Tree)
open Json.Tree (record? required? optional? text? flag? textOrNull? list? choice?)

/-- The names of the shapes. -/
def shapeNames : List (String × Shape) := [("single", .single), ("list", .list), ("map", .map)]

/-- Reads a property. -/
def readProperty (t : Tree) : Option Property := do
  let ms ← t.record?
    ["name", "type", "shape", "key", "id", "reference", "indexed", "constructor"]
  pure {
    name := ← required? ms "name" text?
    type := ← required? ms "type" text?
    shape := ← optional? ms "shape" (choice? shapeNames) .single
    key := ← optional? ms "key" textOrNull? none
    id := ← optional? ms "id" flag? false
    reference := ← optional? ms "reference" flag? false
    indexed := ← optional? ms "indexed" flag? false
    constructor := ← optional? ms "constructor" flag? false }

/-- Reads an entity type. -/
def readEntity (t : Tree) : Option Entity := do
  let ms ← t.record? ["name", "keyspace", "parent", "properties"]
  pure {
    name := ← required? ms "name" text?
    keyspace := ← optional? ms "keyspace" textOrNull? none
    parent := ← optional? ms "parent" textOrNull? none
    properties := ← optional? ms "properties" (list? readProperty) [] }

/-- Reads a schema. -/
def read (t : Tree) : Option Schema := do
  let ms ← t.record? ["enums", "entities"]
  pure {
    enums := ← optional? ms "enums" (list? EnumType.ofTree?) []
    entities := ← optional? ms "entities" (list? readEntity) [] }

/-- Reads the text of a schema. -/
def ofText (s : String) : Except Error Schema :=
  match Tree.ofText? s >>= read with
  | some schema => .ok schema
  | none => .error .json

/-! ## Writing -/

/-- The name of a shape. -/
def Shape.name : Shape → String
  | .single => "single"
  | .list => "list"
  | .map => "map"

/-- A member that is written only if it is set. -/
def member? (name : String) (value : Option String) : List (String × Json) :=
  match value with
  | some s => [(name, .string s)]
  | none => []

/-- The JSON form of a property. -/
def Property.toJson (p : Property) : Json :=
  .ofMembers <|
    [("name", .string p.name), ("type", .string p.type), ("shape", .string p.shape.name),
      ("id", .bool p.id), ("reference", .bool p.reference), ("indexed", .bool p.indexed),
      ("constructor", .bool p.constructor)] ++ member? "key" p.key

/-- The JSON form of an entity type. -/
def Entity.toJson (e : Entity) : Json :=
  .ofMembers <|
    [("name", .string e.name), ("properties", .array (e.properties.map (·.toJson)))] ++
      member? "keyspace" e.keyspace ++ member? "parent" e.parent

/-- The JSON form of a schema. -/
def toJson (s : Schema) : Json :=
  .ofMembers [("enums", .array (s.enums.map (·.toJson))),
    ("entities", .array (s.entities.map (·.toJson)))]

/-! ## Types by name -/

/-- The enumeration of the given name. -/
def enum? (s : Schema) (name : String) : Option EnumType := s.enums.find? (·.name == name)

/-- The scalar type of the given name. -/
def scalar? (s : Schema) (name : String) : Option ScalarType :=
  ScalarType.builtin? name <|> (s.enum? name).map .enum

/-- The type of the given name. -/
def type (s : Schema) (name : String) : Except Error TypeRef :=
  match s.scalar? name with
  | some t => .ok (.scalar t)
  | none =>
    if s.entities.any (·.name == name) then .ok (.entity name) else .error (.unknownType name)

/-- The type of the keys of a declared map; text, if none is given. -/
def keyType (s : Schema) (owner : String) (p : Property) : Except Error ScalarType :=
  let name := p.key.getD "text"
  match s.scalar? name with
  | some t => .ok t
  | none => .error (.unsupported (owner ++ "." ++ p.name) (.keyTypeNotScalar name))

/-- The property that a declaration stands for. -/
def property (s : Schema) (owner : String) (p : Property) : Except Error FlatGraph.Property := do
  let type ← s.type p.type
  let shape ← match p.shape with
    | .single => pure (FlatGraph.Shape.single type)
    | .list => pure (FlatGraph.Shape.list type)
    | .map => do pure (FlatGraph.Shape.map (← s.keyType owner p) type)
  pure ⟨p.name, shape, p.id, p.reference, p.indexed, p.constructor⟩

/-- The entity type that a declaration stands for. -/
def entityType (s : Schema) (e : Entity) : Except Error EntityType := do
  pure ⟨e.name, e.keyspace, e.parent, ← e.properties.mapM (s.property e.name)⟩

end Schema

/-! ## Loading -/

namespace Registry

/-- Registers, of the given types, those whose parents are there when their turn comes; yields the
others too. -/
def registerReady (r : Registry) : List EntityType → Except Error (Registry × List EntityType)
  | [] => .ok (r, [])
  | t :: ts =>
    if t.parent.all r.contains then do
      let (_, r) ← r.register t
      r.registerReady ts
    else do
      let (r, rest) ← r.registerReady ts
      pure (r, t :: rest)

/-- Registers types in at most `rounds` rounds. When a round brings none in, or no round is left,
the first type left over is at fault, for the lack of its parent. -/
def registerAll : Nat → Registry → List EntityType → Except Error Registry
  | _, r, [] => .ok r
  | 0, r, t :: _ => do
    let (_, r) ← r.register t
    pure r
  | rounds + 1, r, ts => do
    let (r, rest) ← r.registerReady ts
    if rest.length = ts.length then registerAll 0 r rest else registerAll rounds r rest

/-- The registry of the types that a schema declares. -/
def ofSchema (s : Schema) : Except Error Registry := do
  let types ← s.entities.mapM s.entityType
  registerAll types.length {} types

end Registry

end FlatGraph
