import FlatGraph.Number.Floating
import FlatGraph.Number.Integer

/-!
# The fewest digits that read back

A finite magnitude is written with the fewest decimal digits that round to it, and among the
decimals of that length with the one nearest to it. `Format.shortest` finds them by exact
arithmetic: scaled by a power of ten, every magnitude is a whole number (`Format.scaled`), whose
leading digits, as they stand or raised by one in the last place, are the only candidates of
their length. The search ends at the latest with all digits of the whole number, which are exact.
-/

namespace FlatGraph.Number

-- Powers are those of `Nat.pow` and `Int.pow`.
attribute [local instance (2000)] instPowNat

/-- The decimal fraction `0.d₁d₂d₃… * 10 ^ point`, with the digits as characters. -/
structure Decimal where
  digits : List Char
  point : Int
deriving DecidableEq, Repr

/-- Which of two equally near decimals of one length is taken. -/
inductive Tie where
  | up
  | toEven
deriving DecidableEq, Repr

namespace Format

/-- The power of ten at which every finite magnitude is a whole number. -/
def places (f : Format) : Nat := (-f.leastExponent).toNat

/-- Magnitude `n` as a whole number of units `10 ^ -places`. -/
def scaled (f : Format) (n : Nat) : Nat :=
  f.significand n * 2 ^ (f.exponent n + f.places).toNat * 5 ^ f.places

/-- Whether `c * unit` of the units `10 ^ -places` round to magnitude `n`. -/
def readsBack (f : Format) (n c unit : Nat) : Bool := f.round (c * unit) (10 ^ f.places) == n

/-- The decimal nearest to magnitude `n` among those that are whole multiples of `unit` and read
back, if there is one. -/
def candidate (f : Format) (tie : Tie) (n unit : Nat) : Option Nat :=
  let x := f.scaled n
  let low := x / unit
  let upper := match compare (2 * (x % unit)) unit, tie with
    | .lt, _ => false
    | .gt, _ => true
    | .eq, .up => true
    | .eq, .toEven => low % 2 == 1
  let first := if upper then low + 1 else low
  let second := if upper then low else low + 1
  if f.readsBack n first unit then some first
  else if f.readsBack n second unit then some second
  else none

/-- The decimal of `c * 10 ^ zeros` of the units `10 ^ -places`, without trailing zeros. -/
def decimalOf (f : Format) (c zeros : Nat) : Decimal :=
  let ds := natText c
  ⟨(ds.reverse.dropWhile (· == '0')).reverse, (ds.length + zeros : Int) - f.places⟩

/-- The fewest digits that read back as magnitude `n`, for `n` neither zero nor infinite. -/
def shortest (f : Format) (tie : Tie) (n : Nat) : Decimal :=
  let length := (natText (f.scaled n)).length
  let found := (List.range length).findSome? fun i =>
    let zeros := length - 1 - i
    (f.candidate tie n (10 ^ zeros)).map (f.decimalOf · zeros)
  found.getD (f.decimalOf (f.scaled n) 0)

end Format

end FlatGraph.Number
