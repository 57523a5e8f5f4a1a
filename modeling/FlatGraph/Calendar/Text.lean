import FlatGraph.Calendar.Timestamp
import FlatGraph.Calendar.Layout

/-!
# Dates as text

A date is stored as its milliseconds since 1970. Texts from elsewhere may also give it as a
timestamp or in one of a few layouts; a text that is an integer of 64 bits is always milliseconds.
-/

namespace FlatGraph.Calendar

/-- Why a text is no date. -/
inductive DateFault where
  | outOfRange
  | unknownForm
deriving DecidableEq, Repr

/-- The wording of a fault. -/
def DateFault.message : DateFault → String
  | .outOfRange => "epoch millis out of range"
  | .unknownForm => "neither epoch millis nor a recognized date format"

/-- Reads a date from text without white space around it. -/
def readDate (s : String) : Except DateFault Instant :=
  match Number.readInt Number.leastSigned Number.greatestSigned s.toList with
  | .ok m =>
    match Instant.ofMillis? m with
    | some t => .ok t
    | none => .error .outOfRange
  | .error _ =>
    match Scan.whole Scan.timestamp s <|> dateLayouts.findSome? (·.read s) with
    | some t => .ok t
    | none => .error .unknownForm

/-- The text that stores a date. -/
def dateText (t : Instant) : List Char := Number.intText t.millis

end FlatGraph.Calendar
