import FlatGraph.Error
import FlatGraph.Path
import FlatGraph.Scalar.Encode

/-!
# Queries

A query asks for the entities that meet all criteria of a first list, and for those that meet any
criterion of a second one. A criterion is a property with a scalar value.
-/

namespace FlatGraph

/-- A property with the value it shall have. -/
abbrev Criterion := String × Value

/-- A query. -/
structure Query where
  allOf : List Criterion := []
  anyOf : List Criterion := []

namespace Query

/-- Whether the query has no criteria. -/
def isEmpty (q : Query) : Bool := q.allOf.isEmpty && q.anyOf.isEmpty

/-- The index fragment of a criterion. -/
def fragment (c : Criterion) : Except Error String :=
  if c.2.isScalar then
    match c.2.toText with
    | .ok text => .ok (Path.indexFragment c.1 text)
    | .error e => .error (.scalar e)
  else .error (.unsupported c.1 (.criterionNotScalar c.2.kind))

/-- The index fragments of both lists of criteria. -/
def fragments (q : Query) : Except Error (List String × List String) := do
  pure (← q.allOf.mapM fragment, ← q.anyOf.mapM fragment)

end Query

end FlatGraph
