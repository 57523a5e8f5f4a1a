/-!
# Integers as decimal text

An integer is written with its fewest digits and a `-` if it is negative. It is read from an
optional sign and at least one digit; leading zeros are allowed. Reading stops at the first
character at which the text can no longer be an integer of the range asked for, so a text with
two faults is refused for the one that comes first.
-/

namespace FlatGraph.Number

-- Powers are those of `Nat.pow` and `Int.pow`.
attribute [local instance (2000)] instPowNat

/-- The greatest number of 64 bits without a sign. -/
abbrev greatestWord : Nat := 2 ^ (64 : Nat) - 1

/-- The least number of 64 bits with a sign. -/
abbrev leastSigned : Int := -2 ^ (63 : Nat)

/-- The greatest number of 64 bits with a sign. -/
abbrev greatestSigned : Int := 2 ^ (63 : Nat) - 1

/-- Why a text is no integer of a range. -/
inductive IntegerFault where
  | empty
  | badDigit
  | tooLarge
  | tooSmall
deriving DecidableEq, Repr

/-- The wording of a fault. -/
def IntegerFault.message : IntegerFault → String
  | .empty => "cannot parse integer from empty string"
  | .badDigit => "invalid digit found in string"
  | .tooLarge => "number too large to fit in target type"
  | .tooSmall => "number too small to fit in target type"

/-- The digits of a natural number. -/
def natText (n : Nat) : List Char := Nat.toDigits 10 n

/-- The text of an integer. -/
def intText (n : Int) : List Char :=
  if n < 0 then '-' :: natText n.natAbs else natText n.natAbs

/-- The value of a decimal digit. -/
def digitValue (c : Char) : Nat := c.toNat - '0'.toNat

/-- Reads digits into a total that may not pass `greatest`. -/
def readUp (greatest : Int) (total : Int) : List Char → Except IntegerFault Int
  | [] => .ok total
  | c :: cs =>
    if c.isDigit then
      let next := 10 * total + digitValue c
      if next ≤ greatest then readUp greatest next cs else .error .tooLarge
    else .error .badDigit

/-- Reads digits below zero into a total that may not pass `least`. -/
def readDown (least : Int) (total : Int) : List Char → Except IntegerFault Int
  | [] => .ok total
  | c :: cs =>
    if c.isDigit then
      let next := 10 * total - digitValue c
      if least ≤ next then readDown least next cs else .error .tooSmall
    else .error .badDigit

/-- Reads an integer between `least` and `greatest`. -/
def readInt (least greatest : Int) : List Char → Except IntegerFault Int
  | [] => .error .empty
  | ['+'] | ['-'] => .error .badDigit
  | '+' :: cs => readUp greatest 0 cs
  | '-' :: cs => readDown least 0 cs
  | cs => readUp greatest 0 cs

/-- Reads a natural number up to `greatest`. A `-` is no sign here. -/
def readNat (greatest : Nat) : List Char → Option Nat
  | [] | ['+'] => none
  | '+' :: cs => (readUp greatest 0 cs).toOption.map Int.toNat
  | cs => (readUp greatest 0 cs).toOption.map Int.toNat

end FlatGraph.Number
