import FlatGraph.Json.Tree
import FlatGraph.Json.Value
import FlatGraph.Number.Integer

/-!
# Reading JSON documents

A document is a JSON text without half surrogate pairs, whose arrays and objects are nested at
most 127 deep and whose numbers are in range. Of members of one name the last one counts.

A number that is no integer of 64 bits is computed in double precision from its leading digits, as
many as fit 64 bits, by one division or multiplication with a power of ten. The result can differ
from the nearest value in the last place.
-/

namespace FlatGraph.Json

open FlatGraph.Number (Floating binary64 greatestWord)

-- Powers are those of `Nat.pow` and `Int.pow`.
attribute [local instance (2000)] instPowNat

/-! ## Numbers -/

/-- Reads digits into a total while it fits 64 bits; what is left starts with the first digit that
does not fit. -/
def readWord (total : Nat) : List Char → Nat × List Char
  | [] => (total, [])
  | c :: cs =>
    let next := total * 10 + (c.toNat - '0'.toNat)
    if next ≤ greatestWord then readWord next cs else (total, c :: cs)

/-- The value nearest to a power of ten. -/
def powerOfTen (n : Nat) : Floating binary64 := .ofRatio false (10 ^ n) 1

/-- Divides by powers of ten until the exponent is used up or nothing is left. -/
def scaleDown (x : Floating binary64) (exponent : Nat) : Floating binary64 :=
  if _h : exponent ≤ 308 then x.div (powerOfTen exponent)
  else if x.equal (.zero false) then x
  else scaleDown (x.div (powerOfTen 308)) (exponent - 308)
termination_by exponent
decreasing_by omega

/-- The value of `significand * 10 ^ exponent`, none beyond the range. -/
def scaled? (significand : Nat) (exponent : Int) : Option (Floating binary64) :=
  let x : Floating binary64 := .ofRatio false significand 1
  if exponent < 0 then some (scaleDown x exponent.natAbs)
  else if exponent ≤ 308 then
    let y := x.mul (powerOfTen exponent.natAbs)
    if y.isFinite then some y else none
  else if significand = 0 then some x
  else none

/-- The opposite value. -/
def negate : Floating binary64 → Floating binary64
  | .nan => .nan
  | .signed negative m => .signed (!negative) m

/-- The number that a numeral spells; none beyond the range. -/
def Numeral.value? (n : Numeral) : Option Number :=
  let sign := fun x => if n.negative then negate x else x
  let (significand, dropped) := readWord 0 n.whole
  match n.fraction, n.exponent, dropped with
  | none, none, [] =>
    if ¬ n.negative then some (.integer significand)
    else if 0 < significand ∧ significand ≤ 2 ^ (63 : Nat) then some (.integer (-significand))
    else some (.floating (negate (.ofRatio false significand 1)))
  | fraction, exponent, dropped =>
    let digits := fraction.getD []
    let (significand, ignored) := readWord significand digits
    let places : Int := digits.length - ignored.length
    (scaled? significand (dropped.length - places + exponent.getD 0)).map (.floating ∘ sign)

/-! ## Documents -/

mutual

/-- The document of a tree with room for `depth` more levels. -/
def Tree.document? (depth : Nat) : Tree → Option Json
  | .null => some .null
  | .bool b => some (.bool b)
  | .number n => .number <$> n.value?
  | .string s => .string <$> s
  | .array items =>
    match depth with
    | 0 => none
    | depth + 1 => .array <$> Tree.documents? depth items
  | .object members =>
    match depth with
    | 0 => none
    | depth + 1 => .ofMembers <$> Tree.documentMembers? depth members
termination_by structural t => t

/-- The documents of the items of an array; one that has none fails them all. -/
def Tree.documents? (depth : Nat) : List Tree → Option (List Json)
  | [] => some []
  | t :: ts => do
    let j ← t.document? depth
    let js ← Tree.documents? depth ts
    pure (j :: js)
termination_by structural ts => ts

/-- The documents of the members of an object, in the order of the text. -/
def Tree.documentMembers? (depth : Nat) :
    List (Option String × Tree) → Option (List (String × Json))
  | [] => some []
  | (name, t) :: ms => do
    let name ← name
    let j ← t.document? depth
    let rest ← Tree.documentMembers? depth ms
    pure ((name, j) :: rest)
termination_by structural ms => ms

end

/-- The number of levels that a document may have. -/
abbrev depthLimit : Nat := 127

/-- Reads a document. -/
def ofText? (s : String) : Option Json := Tree.ofText? s >>= Tree.document? depthLimit

end FlatGraph.Json
