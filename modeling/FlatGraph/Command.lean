import FlatGraph.Convert.Read
import FlatGraph.Convert.Write
import FlatGraph.Document
import FlatGraph.Json.Document
import FlatGraph.Model.Schema
import FlatGraph.Report.Listing

/-!
# Commands

The commands of the command line, as functions of the files they name. Each one loads the schema
and the configuration, does its work, and yields the text to be printed.

* `flatten` writes a document as a record.
* `read` reads a record, whose references are left unset, and writes it as a document.
* `indexes` lists the indexes.
* `version` names the versions.
-/

namespace FlatGraph

/-- What files hold, by their paths. -/
abbrev Files := String → Option Bytes

/-- A command with its settings. -/
inductive Command where
  | flatten (input : String) (type : Option String) (format : String)
  | read (input type : String)
  | indexes (format : String)
  | version
deriving DecidableEq, Repr

/-- A command with the files that all commands share. -/
structure Invocation where
  command : Command
  schema : Option String := none
  config : Option String := none
deriving DecidableEq, Repr

/-- Why a command fails. -/
inductive Failure where
  | error (e : Error)
  /-- The input cannot be read. -/
  | unreadable (path : String) (fault : FileFault)
  /-- The document does not give its type, and neither do the settings. -/
  | noType
  /-- The settings name no schema. -/
  | noSchema (command : String)
deriving DecidableEq, Repr

/-- The wording of a failure. -/
def Failure.message : Failure → String
  | .error e => e.message
  | .unreadable path fault => s!"cannot read {path}: {fault.message}"
  | .noType => "document has no _class member; pass --type"
  | .noSchema command => s!"Schema path required for {command}"

instance : MonadLift (Except Error) (Except Failure) where
  monadLift x := x.mapError .error

namespace Command

/-! ## Files -/

/-- The text of a file. -/
def readText (files : Files) (path : String) : Except FileFault String :=
  match files path with
  | none => .error .missing
  | some bs => (Utf8.decode bs).mapError fun _ => .notText

/-- The registry of a schema file. -/
def loadRegistry (files : Files) (path : String) : Except Error Registry := do
  let text ← (readText files path).mapError .file
  Registry.ofSchema (← Schema.ofText text)

/-- The configuration of a file; without one, the configuration is empty. -/
def loadConfig (files : Files) : Option String → Except Error Config
  | some path => do Config.ofText (← (readText files path).mapError .file)
  | none => .ok {}

/-- The JSON value of an input file. -/
def loadInput (files : Files) (path : String) : Except Failure Json := do
  let text ← (readText files path).mapError (.unreadable path)
  match Json.ofText? text with
  | some j => pure j
  | none => throw (Failure.error .json)

/-! ## Running -/

/-- Lays a report out as JSON or, for any other format, as a text. -/
def layOut (format : String) (json : Json) (text : String) : String :=
  if format = "json" then Report.ofLines [json.pretty] else text

/-- The record of a document. -/
def flattened (r : Registry) (c : Config) (type : Option String) (j : Json) :
    Except Failure Record := do
  let type ← match type <|> Document.givenType? j with
    | some type => pure type
    | none => throw .noType
  let o ← Document.object r type j
  (r.write c.definitions o).1

/-- The document of a record. -/
def restored (r : Registry) (type : String) (j : Json) : Except Failure Json := do
  let record ← Record.ofJson j
  let o ← (r.read .nothing type record.entries).outcome
  pure ((o.map fun o => o.toValue.toJson).getD .null)

/-- The versions. -/
def versions : String := Report.ofLines ["hashkv CLI v0.3.0", "hashkv Core v0.3.0"]

/-- The name of a command. -/
def name : Command → String
  | .flatten .. => "flatten"
  | .read .. => "read"
  | .indexes _ => "indexes"
  | .version => "version"

/-- Runs a command for a schema and a configuration that were named. -/
def runWith (files : Files) (schema : String) (config : Option String) :
    Command → Except Failure String
  | .flatten input type format => do
    let r ← loadRegistry files schema
    let c ← loadConfig files config
    let record ← flattened r c type (← loadInput files input)
    pure (layOut format (Report.flatJson record) (Report.flatText record))
  | .read input type => do
    let r ← loadRegistry files schema
    discard (loadConfig files config)
    pure (Report.ofLines [(← restored r type (← loadInput files input)).pretty])
  | .indexes format => do
    let rows := Report.rows (← loadRegistry files schema) (← loadConfig files config)
    pure (layOut format (Report.listingJson rows) (Report.listingText rows))
  | .version => .ok versions

end Command

namespace Invocation

/-- Runs a command. All commands but `version` need a schema. -/
def run (files : Files) (i : Invocation) : Except Failure String :=
  match i.command, i.schema with
  | .version, _ => .ok Command.versions
  | command, some schema => command.runWith files schema i.config
  | command, none => .error (.noSchema command.name)

/-- The paths of the files that a command may read. -/
def paths (i : Invocation) : List String :=
  i.schema.toList ++ i.config.toList ++ match i.command with
    | .flatten input .. | .read input _ => [input]
    | .indexes _ | .version => []

end Invocation

end FlatGraph
