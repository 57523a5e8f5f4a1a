import FlatGraph.Json.Value
import FlatGraph.Number.Shortest

/-!
# Writing JSON

Values are written on one line without blanks, or with each item and member on a line of its own,
indented by two blanks a level. Characters other than controls, quotes and backslashes stand for
themselves.

A floating-point number has its shortest digits; it is written positionally, with at least one
digit after the point, if its leading digit stands at 10⁻⁵ to 10¹⁵, and otherwise with a signed
exponent. What is infinite or no number is written as null.
-/

namespace FlatGraph.Json

open FlatGraph.Number (Floating binary64 Decimal intText natText)

/-! ## Numbers -/

/-- The exponent behind the mark, with its sign. -/
def exponentText (e : Int) : List Char :=
  (if e < 0 then '-' else '+') :: natText e.natAbs

/-- The layout of a finite number other than zero. -/
def decimalText (d : Decimal) : List Char :=
  let lead := d.point - 1
  if lead < -5 ∨ 15 < lead then
    d.digits.take 1 ++ (if d.digits.length ≤ 1 then [] else '.' :: d.digits.drop 1) ++
      'e' :: exponentText lead
  else if d.point ≤ 0 then
    ['0', '.'] ++ List.replicate (-d.point).toNat '0' ++ d.digits
  else
    let whole := d.digits.take d.point.toNat
    let fraction := d.digits.drop d.point.toNat
    whole.rightpad d.point.toNat '0' ++ '.' :: (if fraction.isEmpty then ['0'] else fraction)

/-- The text of a floating-point number. Of two equally near decimals the even one is written. -/
def floatingText : Floating binary64 → List Char
  | .nan => ['n', 'u', 'l', 'l']
  | .signed negative m =>
    if m.val = binary64.infinity then ['n', 'u', 'l', 'l']
    else
      (if negative then ['-'] else []) ++
        (if m.val = 0 then ['0', '.', '0'] else decimalText (binary64.shortest .toEven m))

/-- The text of a number. -/
def Number.text : Json.Number → String
  | .integer n => .ofList (intText n)
  | .floating x => .ofList (floatingText x)

/-! ## Strings -/

/-- A character inside a string. -/
def escapeChar : Char → List Char
  | '"' => ['\\', '"']
  | '\\' => ['\\', '\\']
  | '\x08' => ['\\', 'b']
  | '\x0c' => ['\\', 'f']
  | '\n' => ['\\', 'n']
  | '\r' => ['\\', 'r']
  | '\t' => ['\\', 't']
  | c =>
    if c.toNat < 0x20 then ['\\', 'u'] ++ (Nat.toDigits 16 c.toNat).leftpad 4 '0' else [c]

/-- A string with its quotes. -/
def stringText (s : String) : String := .ofList ('"' :: s.toList.flatMap escapeChar ++ ['"'])

/-! ## Values -/

mutual

/-- The text of a value, on one line. -/
def compact : Json → String
  | .null => "null"
  | .bool b => if b then "true" else "false"
  | .number n => n.text
  | .string s => stringText s
  | .array items => "[" ++ ",".intercalate (compactItems items) ++ "]"
  | .object members => "\x7b" ++ ",".intercalate (compactMembers members) ++ "\x7d"
termination_by structural j => j

/-- The texts of the items of an array. -/
def compactItems : List Json → List String
  | [] => []
  | j :: js => j.compact :: compactItems js
termination_by structural js => js

/-- The texts of the members of an object, each behind its name. -/
def compactMembers : List (String × Json) → List String
  | [] => []
  | (name, j) :: ms => (stringText name ++ ":" ++ j.compact) :: compactMembers ms
termination_by structural ms => ms

end

/-- Brackets around lines that are indented one level deeper than the brackets. -/
def block (left right indent : String) (lines : List String) : String :=
  if lines.isEmpty then left ++ right
  else
    let inner := "\n" ++ indent ++ "  "
    left ++ inner ++ ("," ++ inner).intercalate lines ++ "\n" ++ indent ++ right

mutual

/-- The text of a value, on lines that are indented below the first one. -/
def prettyAt (indent : String) : Json → String
  | .null => "null"
  | .bool b => if b then "true" else "false"
  | .number n => n.text
  | .string s => stringText s
  | .array items => block "[" "]" indent (prettyItems (indent ++ "  ") items)
  | .object members => block "\x7b" "\x7d" indent (prettyMembers (indent ++ "  ") members)
termination_by structural j => j

/-- The texts of the items of an array whose lines are indented by `indent`. -/
def prettyItems (indent : String) : List Json → List String
  | [] => []
  | j :: js => j.prettyAt indent :: prettyItems indent js
termination_by structural js => js

/-- The texts of the members of an object whose lines are indented by `indent`. -/
def prettyMembers (indent : String) : List (String × Json) → List String
  | [] => []
  | (name, j) :: ms =>
    (stringText name ++ ": " ++ j.prettyAt indent) :: prettyMembers indent ms
termination_by structural ms => ms

end

/-- The text of a value, each item and member on a line of its own. -/
def pretty (j : Json) : String := j.prettyAt ""

end FlatGraph.Json
