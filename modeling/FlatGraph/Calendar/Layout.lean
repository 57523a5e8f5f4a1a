import FlatGraph.Calendar.Instant
import FlatGraph.Calendar.Scan

/-!
# Dates in a given layout

A layout lists what a text holds: parts of a date or of a time, fixed characters, and gaps. A gap
is any white space or none, and white space may also stand before any number. Second 60 is read
as a leap second. What a layout does not mention is the start of its period.
-/

namespace FlatGraph.Calendar

/-- An item of a layout. -/
inductive Item where
  /-- A year of up to four digits, or of any number of digits after a sign. -/
  | year
  /-- The last two digits of a year from 1970 to 2069. -/
  | shortYear
  | month
  | day
  | hour
  /-- An hour from 1 to 12. -/
  | halfHour
  /-- `AM` or `PM`, in any case of letters. -/
  | half
  | minute
  | second
  | char (c : Char)
  | gap
deriving DecidableEq, Repr

/-- A layout. -/
abbrev Layout := List Item

/-- The parts of a date and a time. -/
structure Parts where
  year : Int := 1970
  month : Nat := 1
  day : Nat := 1
  hour : Nat := 0
  minute : Nat := 0
  second : Nat := 0
deriving DecidableEq, Repr

namespace Scan

/-- Takes a number of one or two digits between `low` and `high`, after white space. -/
def short (low high : Nat) : Scan Nat := do
  blanks
  number 1 2 >>= within low high

/-- Takes a year, after white space. -/
def year : Scan Int := do
  blanks
  match ← peek with
  | some '-' => char '-'; (fun ds => -(Nat.ofDigitChars 10 ds 0 : Int)) <$> someDigits
  | some '+' => char '+'; (fun ds => (Nat.ofDigitChars 10 ds 0 : Int)) <$> someDigits
  | _ => (fun n => (n : Int)) <$> number 1 4
where
  /-- Takes as many digits as there are, at least one. -/
  someDigits : Scan (List Char) := do
    let ds ← allDigits
    if ds.isEmpty then failure else pure ds

/-- Takes one of the words `AM` and `PM`, and says whether it is the second. -/
def half : Scan Bool := do
  let c ← satisfying fun c => c = 'a' ∨ c = 'A' ∨ c = 'p' ∨ c = 'P'
  discard (satisfying fun c => c = 'm' ∨ c = 'M')
  pure (c = 'p' ∨ c = 'P')

/-- Takes one item into the parts read so far. -/
def item (p : Parts) : Item → Scan Parts
  | .year => do pure { p with year := ← year }
  | .shortYear => do
    let n ← short 0 99
    pure { p with year := if n < 70 then 2000 + n else 1900 + n }
  | .month => do pure { p with month := ← short 1 12 }
  | .day => do pure { p with day := ← short 1 31 }
  | .hour => do pure { p with hour := ← short 0 23 }
  | .halfHour => do pure { p with hour := (← short 1 12) % 12 }
  | .half => do pure (if ← half then { p with hour := p.hour + 12 } else p)
  | .minute => do pure { p with minute := ← short 0 59 }
  | .second => do pure { p with second := ← short 0 60 }
  | .char c => do char c; pure p
  | .gap => do blanks; pure p

end Scan

/-- The instant of the parts, in universal time. -/
def Parts.instant? (p : Parts) : Option Instant :=
  Instant.ofDate? ⟨p.year, p.month, p.day⟩ (p.hour * 3600 + p.minute * 60 + min p.second 59)
    (if p.second = 60 then 1000000000 else 0) 0

/-- Reads a text that has the layout. -/
def Layout.read (l : Layout) (s : String) : Option Instant :=
  (Scan.whole (l.foldlM Scan.item {}) s).bind Parts.instant?

/-- The layouts in which dates are accepted beside timestamps, in the order in which they are
tried. -/
def dateLayouts : List Layout :=
  [ [.year, .char '-', .month, .char '-', .day, .gap, .hour, .char ':', .minute, .char ':',
      .second],
    [.year, .char '-', .month, .char '-', .day, .char 'T', .hour, .char ':', .minute, .char ':',
      .second],
    [.month, .char '/', .day, .char '/', .shortYear, .gap, .halfHour, .char ':', .minute, .gap,
      .half],
    [.year, .char '-', .month, .char '-', .day] ]

end FlatGraph.Calendar
