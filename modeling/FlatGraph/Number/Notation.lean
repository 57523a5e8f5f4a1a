import FlatGraph.Number.Shortest

/-!
# Floating-point numbers as text

A value is written positionally with its shortest digits, never with an exponent: `0.0000001`,
`1` for a whole number, `-0`, `inf`, `NaN`. It is read from a decimal literal with an optional
fraction and an optional exponent, or from one of the words for infinity and for no number, in
any case of letters, and is the value nearest to what the literal says.
-/

namespace FlatGraph.Number

-- Powers are those of `Nat.pow` and `Int.pow`.
attribute [local instance (2000)] instPowNat

/-! ## Writing -/

/-- The digits around a point: at least one before it, and no point without digits after it. -/
def Decimal.positional (d : Decimal) : List Char :=
  if d.point ≤ 0 then
    ['0', '.'] ++ List.replicate (-d.point).toNat '0' ++ d.digits
  else if (d.digits.length : Int) ≤ d.point then
    d.digits ++ List.replicate (d.point - d.digits.length).toNat '0'
  else
    d.digits.take d.point.toNat ++ '.' :: d.digits.drop d.point.toNat

namespace Floating

variable {f : Format}

/-- The positional text of a value. Of two equally near decimals the upper one is written. -/
def text : Floating f → List Char
  | .nan => ['N', 'a', 'N']
  | .signed negative m =>
    (if negative then ['-'] else []) ++
      (if m.val = f.infinity then ['i', 'n', 'f']
      else if m.val = 0 then ['0']
      else (f.shortest .up m).positional)

end Floating

/-! ## Reading -/

/-- Why a text is no floating-point number. -/
inductive FloatingFault where
  | empty
  | badLiteral
deriving DecidableEq, Repr

/-- The wording of a fault. -/
def FloatingFault.message : FloatingFault → String
  | .empty => "cannot parse float from empty string"
  | .badLiteral => "invalid float literal"

/-- A decimal literal without its sign: its digits before and after the point, and its exponent. -/
structure Literal where
  whole : List Char
  fraction : List Char
  exponent : Int
deriving DecidableEq, Repr

/-- Reads the exponent that stands behind the mark. -/
def readExponent (cs : List Char) : Option Int :=
  let (negative, ds) := match cs with
    | '+' :: ds => (false, ds)
    | '-' :: ds => (true, ds)
    | ds => (false, ds)
  if ds.isEmpty || !ds.all Char.isDigit then none
  else
    let n : Int := Nat.ofDigitChars 10 ds 0
    some (if negative then -n else n)

/-- Reads a literal: digits with at most one point among or around them, then perhaps `e` or `E`
and an exponent. -/
def readLiteral (cs : List Char) : Option Literal :=
  let whole := cs.takeWhile Char.isDigit
  let rest := cs.dropWhile Char.isDigit
  let (fraction, rest) := match rest with
    | '.' :: rest => (rest.takeWhile Char.isDigit, rest.dropWhile Char.isDigit)
    | rest => ([], rest)
  if whole.isEmpty && fraction.isEmpty then none
  else match rest with
    | [] => some ⟨whole, fraction, 0⟩
    | 'e' :: rest | 'E' :: rest => (readExponent rest).map (⟨whole, fraction, ·⟩)
    | _ => none

namespace Floating

variable (f : Format)

/-- The value nearest to `± coefficient * 10 ^ exponent`. A decimal beyond the format's places
above or below the point is infinite or zero, and is not expanded. -/
def ofDecimal (negative : Bool) (coefficient : Nat) (exponent : Int) : Floating f :=
  let size : Int := (natText coefficient).length + exponent
  if coefficient = 0 ∨ size < -f.places then zero negative
  else if (f.places : Int) < size then infinite negative
  else ofRatio negative (coefficient * 10 ^ exponent.toNat) (10 ^ (-exponent).toNat)

/-- The value nearest to a literal. -/
def ofLiteral (negative : Bool) (l : Literal) : Floating f :=
  ofDecimal f negative (Nat.ofDigitChars 10 (l.whole ++ l.fraction) 0)
    (l.exponent - l.fraction.length)

/-- Reads a number without its sign. -/
def readUnsigned (negative : Bool) (cs : List Char) : Except FloatingFault (Floating f) :=
  match readLiteral cs with
  | some l => .ok (ofLiteral f negative l)
  | none =>
    let word := String.ofList (cs.map Char.toLower)
    if word = "inf" ∨ word = "infinity" then .ok (infinite negative)
    else if word = "nan" then .ok .nan
    else .error .badLiteral

/-- Reads a number. -/
def read : List Char → Except FloatingFault (Floating f)
  | [] => .error .empty
  | '+' :: cs => readUnsigned f false cs
  | '-' :: cs => readUnsigned f true cs
  | cs => readUnsigned f false cs

end Floating

end FlatGraph.Number
