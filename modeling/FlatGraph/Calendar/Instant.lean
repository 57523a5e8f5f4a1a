import FlatGraph.Calendar.Day

/-!
# Instants

An instant is a number of whole seconds since the start of 1970 and a number of nanoseconds after
that. A leap second is the last second of a minute with another thousand million nanoseconds on
top. Instants reach from the start of the year -262143 to the end of the year 262142.
-/

namespace FlatGraph.Calendar

/-- The start of 1 January -262143. -/
abbrev leastSecond : Int := -8334601228800

/-- The last second of 31 December 262142. -/
abbrev greatestSecond : Int := 8210266876799

/-- A point in time. -/
structure Instant where
  seconds : Int
  nanos : Nat
  least_le : leastSecond ≤ seconds
  le_greatest : seconds ≤ greatestSecond
  nanos_lt : nanos < 2000000000
  /-- Only the last second of a minute can be followed by a leap second. -/
  leap_at_minute : 1000000000 ≤ nanos → seconds % 60 = 59
deriving DecidableEq, Repr

namespace Instant

/-- The instant with the given seconds and nanoseconds, if there is one. -/
def of? (seconds : Int) (nanos : Nat) : Option Instant :=
  if h : leastSecond ≤ seconds ∧ seconds ≤ greatestSecond ∧ nanos < 2000000000 ∧
      (1000000000 ≤ nanos → seconds % 60 = 59) then
    some ⟨seconds, nanos, h.1, h.2.1, h.2.2.1, h.2.2.2⟩
  else none

/-- Whether the instant lies in a leap second. -/
def isLeap (t : Instant) : Bool := 1000000000 ≤ t.nanos

/-- The whole milliseconds since the start of 1970, rounded down. -/
def millis (t : Instant) : Int := t.seconds * 1000 + (t.nanos / 1000000 : Nat)

/-- The start of a millisecond, if it lies in the range of instants. -/
def ofMillis? (m : Int) : Option Instant := of? (m / 1000) ((m % 1000).toNat * 1000000)

/-- The instant on a date, `second` seconds after midnight, shown by clocks that are `offset`
seconds ahead. -/
def ofDate? (d : Date) (second : Int) (nanos : Nat) (offset : Int) : Option Instant :=
  if d.isValid then of? (d.toDay * 86400 + second - offset) nanos else none

end Instant

end FlatGraph.Calendar
