import FlatGraph.Model.EntityType
import FlatGraph.Sorted

/-!
# The registry

The entity types by their names. A type is registered after its parent, and takes over what the
parent declares at that time; a type that is registered again gives way to the new one.

`Registry.isAssignable` follows the links to parents. As types can be registered again, the links
can lead in a circle; a chain without repetition has at most as many types as there are.
-/

namespace FlatGraph

/-- The registered types, each under its name. -/
structure Registry where
  /-- The types with their names, in ascending order of the names. -/
  types : List (String × EntityType) := []
deriving DecidableEq, Repr

namespace Registry

/-- The type of the given name. -/
def find? (r : Registry) (name : String) : Option EntityType := r.types.lookup name

/-- Whether a type of the given name is registered. -/
def contains (r : Registry) (name : String) : Bool := (r.find? name).isSome

/-- The names of the types, in ascending order. -/
def names (r : Registry) : List String := r.types.map (·.1)

/-- The number of types. -/
def size (r : Registry) : Nat := r.types.length

/-- The type of the given name, which has to be registered. -/
def get (r : Registry) (name : String) : Except Error EntityType :=
  match r.find? name with
  | some t => .ok t
  | none => .error (.unknownType name)

/-! ## Registering -/

/-- The type as it is registered: with what it inherits from its parent. -/
def inherit (r : Registry) (t : EntityType) : Except Error EntityType :=
  match t.parent with
  | none => .ok t
  | some parent =>
    match r.find? parent with
    | some p => .ok (t.extending p)
    | none => .error (.unsupported t.name (.unknownParent parent))

/-- Registers a type, if it keeps the rules once it has inherited. -/
def register (r : Registry) (t : EntityType) : Except Error (EntityType × Registry) := do
  let t ← r.inherit t
  t.check
  pure (t, ⟨Sorted.put t.name t r.types⟩)

/-! ## Assignability -/

/-- Whether `sup` is among the first `steps` types from `sub` on, along links to parents. -/
def reaches (r : Registry) (sup : String) : Nat → String → Bool
  | 0, _ => false
  | steps + 1, sub =>
    match r.find? sub with
    | none => false
    | some t =>
      t.name == sup || match t.parent with
        | some parent => r.reaches sup steps parent
        | none => false

/-- Whether objects of type `sub` can stand where type `sup` is declared. -/
def isAssignable (r : Registry) (sub sup : String) : Bool := r.reaches sup (r.size + 1) sub

/-! ## Objects -/

/-- Creates an object of a type with values for some of its properties. -/
def instantiate (t : EntityType) (args : List (String × Value)) : Except Error Object :=
  args.foldlM (fun o a =>
    match t.property? a.1 with
    | some _ => .ok (o.set a.1 a.2)
    | none => .error (.unsupported (t.name ++ "." ++ a.1) .unknownArgument))
    ⟨t.name, []⟩

end Registry

end FlatGraph
