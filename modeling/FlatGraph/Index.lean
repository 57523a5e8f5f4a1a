/-!
# Index definitions

An index lets entities be found by the value of one of their properties. An index is defined for a
keyspace and the name of a property. Definitions are kept in the order in which they were made,
and none is kept twice.
-/

namespace FlatGraph

/-- An index on a property of the entities of a keyspace. -/
structure IndexDefinition where
  keyspace : String
  property : String
deriving DecidableEq, Repr

/-- The index definitions made so far. -/
structure Indexes where
  toList : List IndexDefinition := []
deriving DecidableEq, Repr

namespace Indexes

/-- Whether an index is defined. -/
def contains (ix : Indexes) (d : IndexDefinition) : Bool := ix.toList.contains d

/-- Defines an index, unless it is defined already, and says whether it is new. -/
def define (ix : Indexes) (d : IndexDefinition) : Bool × Indexes :=
  if ix.contains d then (false, ix) else (true, ⟨ix.toList ++ [d]⟩)

/-- Defines an index, unless it is defined already. -/
def add (ix : Indexes) (d : IndexDefinition) : Indexes := (ix.define d).2

/-- The definitions of a list, each at its first place. -/
def ofList (ds : List IndexDefinition) : Indexes := ds.foldl add {}

/-- The definitions for a keyspace. -/
def forKeyspace (ix : Indexes) (keyspace : String) : List IndexDefinition :=
  ix.toList.filter (·.keyspace == keyspace)

end Indexes

end FlatGraph
