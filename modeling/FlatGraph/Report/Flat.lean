import FlatGraph.Json.Printer
import FlatGraph.Record
import FlatGraph.Text.Column

/-!
# Reports on records

What the record of an object holds: its key, its entries and the index sets it belongs to, laid
out as a text or as JSON. The text keeps the order of the entries; in JSON they are sorted.
-/

namespace FlatGraph.Report

open Text (column)

/-- Lines of text, each with its end. -/
def ofLines (lines : List String) : String := String.join (lines.map (· ++ "\n"))

/-- The width of the widest key, in bytes. -/
def keyWidth (r : Record) : Nat := (r.entries.toList.map (·.1.utf8ByteSize)).foldl max 0

/-- The record as a text. -/
def flatText (r : Record) : String :=
  let keys := r.indexKeys
  ofLines <|
    ["hashkv Flat Record", "==================", "", "Key:      " ++ r.rootKey?.getD "(no id)",
      "Keyspace: " ++ r.keyspace.getD "-", "Entries:  " ++ toString r.entries.size, ""] ++
    r.entries.toList.map (fun e => "  " ++ column (keyWidth r) e.1 ++ " = " ++ Utf8.lossy e.2) ++
    if keys.isEmpty then [] else "" :: "Index keys:" :: keys.map ("  " ++ ·)

/-- The record as JSON; the key is left out if the record has no id. -/
def flatJson (r : Record) : Json :=
  .object <|
    (match r.rootKey? with
      | some key => [("key", .string key)]
      | none => []) ++
    [("keyspace", match r.keyspace with
        | some keyspace => .string keyspace
        | none => .null),
      ("data", .object (r.toTexts.map fun e => (e.1, .string e.2))),
      ("index_keys", .array (r.indexKeys.map .string))]

end FlatGraph.Report
