import FlatGraph.Config
import FlatGraph.Model.Registry
import FlatGraph.Report.Flat

/-!
# The listing of indexes

All indexes that there are for a schema and a configuration: the configured ones, as they are
given, and then those of properties that are marked as indexed, each once, in the order of the
names of the types.
-/

namespace FlatGraph.Report

open Text (column)

/-- Where an index definition comes from. -/
inductive Source where
  | configured
  | declared
deriving DecidableEq, Repr

/-- The name of a source. -/
def Source.name : Source → String
  | .configured => "config"
  | .declared => "annotation"

/-- A row of the listing. -/
structure Row where
  definition : IndexDefinition
  source : Source
deriving DecidableEq, Repr

/-- The indexes on the properties of the registered types that are marked as indexed. -/
def declaredIndexes (r : Registry) : List IndexDefinition :=
  r.types.flatMap fun t => (t.2.properties.filter (·.isIndexed)).map fun p =>
    ⟨t.2.keyspace, p.name⟩

/-- Adds a declared index, unless there is a row with it. -/
def addDeclared (rows : List Row) (d : IndexDefinition) : List Row :=
  if rows.any (·.definition == d) then rows else rows ++ [⟨d, .declared⟩]

/-- The rows of the listing. -/
def rows (r : Registry) (c : Config) : List Row :=
  (declaredIndexes r).foldl addDeclared (c.indexes.map (⟨·, .configured⟩))

/-- A line of the table. -/
def tableLine (keyspace path type source : String) : String :=
  " ".intercalate [column 20 keyspace, column 24 path, column 8 type, source]

/-- The type of every index. -/
def indexType : String := "simple"

/-- The listing as a table. -/
def listingText (rows : List Row) : String :=
  if rows.isEmpty then ofLines ["No index definitions."]
  else ofLines <|
    tableLine "KEYSPACE" "PATH" "TYPE" "SOURCE" ::
      rows.map fun row =>
        tableLine row.definition.keyspace row.definition.property indexType row.source.name

/-- A row as JSON. -/
def Row.toJson (row : Row) : Json :=
  .object [("keyspace", .string row.definition.keyspace), ("path", .string row.definition.property),
    ("index_type", .string indexType), ("source", .string row.source.name)]

/-- The listing as JSON. -/
def listingJson (rows : List Row) : Json := .array (rows.map (·.toJson))

end FlatGraph.Report
