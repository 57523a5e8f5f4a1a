import FlatGraph.Error
import FlatGraph.Json.Form
import FlatGraph.Model.EntityType

/-!
# Configuration

A configuration defines indexes beside those that a schema asks for, and says whether entities
that are stored without an id get one.

    {"indexes": [{"keyspace": "persons", "path": "lastname"}], "generate_ids": false}
-/

namespace FlatGraph

/-- A configuration. -/
structure Config where
  indexes : List IndexDefinition := []
  generateIds : Bool := true
deriving DecidableEq, Repr

namespace Config

open Json (Tree)
open Json.Tree (record? required? optional? text? flag? list? choice?)

/-- Reads an index definition. There is one type of index only. -/
def readDefinition (t : Tree) : Option IndexDefinition := do
  let ms ← t.record? ["keyspace", "path", "index_type"]
  let keyspace ← required? ms "keyspace" text?
  let property ← required? ms "path" text?
  optional? ms "index_type" (choice? [("simple", ())]) ()
  pure ⟨keyspace, property⟩

/-- Reads a configuration. -/
def read (t : Tree) : Option Config := do
  let ms ← t.record? ["indexes", "generate_ids"]
  pure {
    indexes := ← optional? ms "indexes" (list? readDefinition) []
    generateIds := ← optional? ms "generate_ids" flag? true }

/-- What is wrong with an index definition. -/
def fault? (d : IndexDefinition) : Option ConfigFault :=
  if d.keyspace = "" ∨ d.property = "" then some (.incomplete d)
  else if ¬ EntityType.isKeyspace d.keyspace then some (.badKeyspace d.keyspace)
  else none

/-- Refuses a configuration with a definition that is incomplete or names no keyspace. -/
def check (c : Config) : Except Error Unit :=
  match c.indexes.findSome? fault? with
  | some fault => .error (.invalidConfig fault)
  | none => .ok ()

/-- Reads the text of a configuration. -/
def ofText (s : String) : Except Error Config :=
  match Tree.ofText? s >>= read with
  | some c => do
    c.check
    pure c
  | none => .error .json

/-- The indexes that the configuration defines. -/
def definitions (c : Config) : Indexes := .ofList c.indexes

end Config

end FlatGraph
