import FlatGraph.Text.Quoted
import FlatGraph.Text.Utf8

/-!
# Errors of the store
-/

namespace FlatGraph

/-- What an operation of the store finds wrong. -/
inductive StoreError where
  /-- The key holds a set. -/
  | notHash (key : Bytes)
  /-- The key holds a hash. -/
  | notSet (key : Bytes)
  | closed
deriving DecidableEq, Repr

/-- The wording of an error. -/
def StoreError.message : StoreError → String
  | .notHash key => s!"wrong type at key {Text.quote (Utf8.lossy key)}: expected hash"
  | .notSet key => s!"wrong type at key {Text.quote (Utf8.lossy key)}: expected set"
  | .closed => "store is closed"

end FlatGraph
