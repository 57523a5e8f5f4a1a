import FlatGraph.Error

/-!
# Entity types

An entity type declares the properties of its objects. A property holds a single value, a list or
a map, of scalars or of entities; entities are stored inside the entity that holds them, or only
referred to. A type may extend a parent, whose properties come first among its own.
-/

namespace FlatGraph

/-- The declared type of a value: a scalar type, or an entity type by its name. -/
inductive TypeRef where
  | scalar (type : ScalarType)
  | entity (name : String)
deriving DecidableEq, Repr

/-- The name of a type. -/
def TypeRef.name : TypeRef → String
  | .scalar type => type.name
  | .entity name => name

/-- How many values a property holds. -/
inductive Shape where
  | single (type : TypeRef)
  | list (element : TypeRef)
  | map (key : ScalarType) (value : TypeRef)
deriving DecidableEq, Repr

/-- The declared type of the values that a property holds. -/
def Shape.type : Shape → TypeRef
  | .single type => type
  | .list element => element
  | .map _ value => value

/-- Whether the shape is one scalar. -/
def Shape.isSingleScalar : Shape → Bool
  | .single (.scalar _) => true
  | _ => false

/-- A property of an entity type. -/
structure Property where
  name : String
  shape : Shape
  /-- The property holds the id. -/
  isId : Bool := false
  /-- The entities that the property holds are only referred to. -/
  isReference : Bool := false
  /-- Entities can be found by the value. -/
  isIndexed : Bool := false
  /-- The value is set when an object is created. -/
  isConstructorBound : Bool := false
deriving DecidableEq, Repr

namespace Property

/-- The type of the keys, if the property holds a map. -/
def keyType? (p : Property) : Option ScalarType :=
  match p.shape with
  | .map key _ => some key
  | _ => none

/-- Whether the property holds a list. -/
def isList (p : Property) : Bool :=
  match p.shape with
  | .list _ => true
  | _ => false

/-- Whether the property holds a map. -/
def isMap (p : Property) : Bool := p.keyType?.isSome

/-- Whether the property holds one entity that is stored inside. -/
def isNested (p : Property) : Bool :=
  match p.shape with
  | .single (.entity _) => !p.isReference
  | _ => false

end Property

/-- An entity type. -/
structure EntityType where
  name : String
  /-- The keyspace, if one is declared. -/
  declaredKeyspace : Option String := none
  parent : Option String := none
  properties : List Property := []
deriving DecidableEq, Repr

namespace EntityType

/-- The keyspace in which entities of the type are stored: the name of the type, if none is
declared. -/
def keyspace (t : EntityType) : String := t.declaredKeyspace.getD t.name

/-- The first property of the given name. -/
def property? (t : EntityType) (name : String) : Option Property :=
  t.properties.find? (·.name == name)

/-- The property that holds the id. -/
def idProperty? (t : EntityType) : Option Property := t.properties.find? (·.isId)

/-! ## Inheritance -/

/-- Puts a property in the place of the first one of its name, or at the end. -/
def overrideWith (p : Property) : List Property → List Property
  | [] => [p]
  | q :: qs => if q.name = p.name then p :: qs else q :: overrideWith p qs

/-- The type as an extension of its parent: it has the keyspace of the parent, unless it declares
one, and the properties of the parent before its own, except that a property of the same name
takes the place of the inherited one. -/
def extending (t parent : EntityType) : EntityType :=
  { t with
    declaredKeyspace := some (t.declaredKeyspace.getD parent.keyspace)
    properties := t.properties.foldl (fun ps p => overrideWith p ps) parent.properties }

/-! ## Rules -/

/-- The name of a property with that of its type. -/
def pathOf (t : EntityType) (p : Property) : String := t.name ++ "." ++ p.name

/-- Whether a keyspace can be told apart from ids and index fragments behind it. -/
def isKeyspace (s : String) : Bool := s != "" && !s.toList.contains '.' && !s.toList.contains ':'

/-- The first rule that a property breaks. -/
def propertyViolation? (p : Property) : Option Violation :=
  if p.isId ∧ (¬ p.shape.isSingleScalar ∨ p.isReference) then some .idNotScalar
  else if p.isConstructorBound ∧ ¬ p.shape.isSingleScalar then some .constructorNotScalar
  else if p.isReference ∧ p.shape.type matches .scalar _ then some .referenceToScalar
  else if p.isIndexed ∧ ¬ p.shape.isSingleScalar then some .indexNotScalar
  else none

/-- Refuses a type that breaks a rule: its keyspace has to be one, at most one property holds the
id, and each property keeps the rules for properties. -/
def check (t : EntityType) : Except Error Unit := do
  unless isKeyspace t.keyspace do throw (.unsupported t.name (.badKeyspace t.keyspace))
  match t.properties.filter (·.isId) with
  | _ :: second :: _ => throw (.unsupported (t.pathOf second) .secondId)
  | _ => pure ()
  match t.properties.findSome? fun p => (propertyViolation? p).map (p, ·) with
  | some (p, v) => throw (.unsupported (t.pathOf p) v)
  | none => pure ()

end EntityType

end FlatGraph
