import FlatGraph.Text.Blank

/-!
# Scanning dates and times

A scan takes characters from the front of a text. It yields what it read, or fails.
-/

namespace FlatGraph.Calendar

/-- A reading of the front of a text. -/
abbrev Scan := StateT (List Char) Option

namespace Scan

/-- Takes one character that satisfies `p`. -/
def satisfying (p : Char → Bool) : Scan Char := fun
  | [] => none
  | c :: cs => if p c then some (c, cs) else none

/-- Takes the character `c`. -/
def char (c : Char) : Scan Unit := discard (satisfying (· == c))

/-- Takes at most `most` digits, and at least `least`. -/
def digits (least most : Nat) : Scan (List Char) := fun cs =>
  let ds := (cs.take most).takeWhile Char.isDigit
  if ds.length < least then none else some (ds, cs.drop ds.length)

/-- Takes a number of at least `least` and at most `most` digits. -/
def number (least most : Nat) : Scan Nat := (Nat.ofDigitChars 10 · 0) <$> digits least most

/-- Takes a number of one or two digits between `low` and `high`. -/
def within (low high : Nat) (n : Nat) : Scan Nat :=
  if low ≤ n ∧ n ≤ high then pure n else failure

/-- Takes as many digits as there are. -/
def allDigits : Scan (List Char) := fun cs =>
  some (cs.takeWhile Char.isDigit, cs.dropWhile Char.isDigit)

/-- Passes over white space, if there is some. -/
def blanks : Scan Unit := fun cs => some ((), Text.trimStart cs)

/-- Looks at the next character without taking it. -/
def peek : Scan (Option Char) := fun cs => some (cs.head?, cs)

/-- Reads a whole text: nothing may be left over. -/
def whole {α : Type} (p : Scan α) (s : String) : Option α :=
  match p s.toList with
  | some (a, []) => some a
  | _ => none

end Scan

end FlatGraph.Calendar
