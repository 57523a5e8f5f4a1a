import FlatGraph.Text.Cut

/-!
# Paths and keys

A flat record names each leaf of an object graph by its path: the names of properties, separated
by dots, with a segment in brackets for each list element (its index) and each map entry (its key
text):

    firstname
    address.city
    nicknames.[0]
    coworkers.[1].address._class

The last segment of the last line marks a type hint: the type of the object at the path before it.
The empty path is that of the root object.

A store names an entity by its keyspace and id (`persons:1`), and the set of the entities that
share a value of an indexed property by keyspace and index fragment (`persons.firstname:rand`).
-/

namespace FlatGraph.Path

open Text (after? cut? beforeLast?)

/-! ## Paths in a record -/

/-- The last segment of a type hint. -/
abbrev hint : String := "_class"

/-- The path of a property of the object at `base`. -/
def join (base name : String) : String := if base = "" then name else base ++ "." ++ name

/-- The path of an element below `base`. -/
def element (base key : String) : String := base ++ ".[" ++ key ++ "]"

/-- What the paths of all elements below `base` begin with. -/
def elementStart (base : String) : String := base ++ ".["

/-- What the paths of all that lies below `path` begin with. -/
def subtreeStart (path : String) : String := path ++ "."

/-- The path of the type hint of the object at `path`. -/
def hintOf (path : String) : String := join path hint

/-- The key text of the element that `key` lies in or below: all up to the first closing bracket
behind `start`. -/
def elementKey? (key start : String) : Option String := do
  let rest ← after? start key
  let (text, _) ← cut? ']' rest
  pure text

/-- The path of the element that `key` lies in or below. -/
def elementPath? (key start : String) : Option String :=
  (elementKey? key start).map fun text => start ++ text ++ "]"

/-- The key text of an element that is a leaf: all up to the bracket at the end of `key`. -/
def leafKey? (key start : String) : Option String := after? start key >>= beforeLast? ']'

/-! ## Keys of a store -/

/-- The key of an entity. -/
def entityKey (keyspace id : String) : String := keyspace ++ ":" ++ id

/-- The fragment of an indexed value. -/
def indexFragment (property value : String) : String := property ++ ":" ++ value

/-- The key of the set of entities with an index fragment. -/
def indexKey (keyspace fragment : String) : String := keyspace ++ "." ++ fragment

/-- What the keys of all index sets of a keyspace begin with. -/
def indexStart (keyspace : String) : String := subtreeStart keyspace

/-- The keyspace and the id that a pointer names. It is cut at the first colon: ids may hold
colons, keyspaces may not. -/
def splitPointer? (pointer : String) : Option (String × String) := do
  let (keyspace, id) ← cut? ':' pointer
  if keyspace = "" ∨ id = "" then none else some (keyspace, id)

end FlatGraph.Path
