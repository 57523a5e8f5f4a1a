import FlatGraph.Calendar.Instant
import FlatGraph.Calendar.Scan
import FlatGraph.Number.Integer

/-!
# Timestamps

The exchange form of an instant is `1978-11-25T10:30:00.5+00:00`: date, time to the second, an
optional fraction, and the offset of the clock that shows them. A timestamp is written for a clock
without offset, its fraction in none, three, six or nine digits as needed, and second 60 for a
leap second; a year outside 0 to 9999 gets a sign. It is read with a year of four digits and any
offset below a day; digits of a fraction beyond the ninth do not count.
-/

namespace FlatGraph.Calendar

-- Powers are those of `Nat.pow` and `Int.pow`.
attribute [local instance (2000)] instPowNat

/-! ## Writing -/

/-- The digits of `n`, padded with zeros to `width`. -/
def padded (width n : Nat) : List Char := (Number.natText n).leftpad width '0'

/-- The digits of a year. -/
def yearText (year : Int) : List Char :=
  if 0 ≤ year ∧ year ≤ 9999 then padded 4 year.toNat
  else (if year < 0 then '-' else '+') :: padded 4 year.natAbs

/-- A fraction of a second, in thousandths, millionths or thousand-millionths. -/
def fractionText (nanos : Nat) : List Char :=
  if nanos = 0 then []
  else if nanos % 1000000 = 0 then '.' :: padded 3 (nanos / 1000000)
  else if nanos % 1000 = 0 then '.' :: padded 6 (nanos / 1000)
  else '.' :: padded 9 nanos

/-- The timestamp of an instant. -/
def Instant.timestamp (t : Instant) : String :=
  let d := Date.ofDay (t.seconds / 86400)
  let second := (t.seconds % 86400).toNat
  String.ofList <|
    yearText d.year ++ '-' :: padded 2 d.month ++ '-' :: padded 2 d.day ++
    'T' :: padded 2 (second / 3600) ++ ':' :: padded 2 (second / 60 % 60) ++
    ':' :: padded 2 (second % 60 + t.nanos / 1000000000) ++
    fractionText (t.nanos % 1000000000) ++ ['+', '0', '0', ':', '0', '0']

/-! ## Reading -/

namespace Scan

/-- Takes a number of exactly two digits between `low` and `high`. -/
def two (low high : Nat) : Scan Nat := number 2 2 >>= within low high

/-- Takes a fraction of a second, if there is one, as nanoseconds. -/
def fraction : Scan Nat := do
  if (← peek) = some '.' then
    char '.'
    let ds ← digits 1 9
    discard allDigits
    pure (Nat.ofDigitChars 10 ds 0 * 10 ^ (9 - ds.length))
  else pure 0

/-- Takes an offset, in seconds. -/
def offset : Scan Int := do
  let sign ← satisfying fun _ => true
  if sign = 'Z' ∨ sign = 'z' then pure 0
  else if sign = '+' ∨ sign = '-' ∨ sign = '\u2212' then
    let hours ← number 2 2
    char ':'
    let minutes ← two 0 59
    let n : Int := hours * 3600 + minutes * 60
    if n < 86400 then pure (if sign = '+' then n else -n) else failure
  else failure

/-- Takes a timestamp. -/
def timestamp : Scan Instant := do
  let year ← number 4 4
  char '-'
  let month ← two 1 12
  char '-'
  let day ← two 1 31
  discard (satisfying fun c => c = 'T' ∨ c = 't' ∨ c = ' ')
  let hour ← two 0 23
  char ':'
  let minute ← two 0 59
  char ':'
  let second ← two 0 60
  let nanos ← fraction
  let offset ← offset
  let time : Int := hour * 3600 + minute * 60 + min second 59
  let leap := if second = 60 then 1000000000 else 0
  StateT.lift (Instant.ofDate? ⟨year, month, day⟩ time (leap + nanos) offset)

end Scan

end FlatGraph.Calendar
