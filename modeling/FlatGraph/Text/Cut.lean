/-!
# Cutting texts

Texts are cut behind a known beginning, before a known last character, and at the first occurrence
of a character.
-/

namespace FlatGraph.Text

/-- What follows `start` in a list that begins with it. -/
def dropStart? : List Char → List Char → Option (List Char)
  | [], cs => some cs
  | _ :: _, [] => none
  | a :: start, c :: cs => if a = c then dropStart? start cs else none

theorem dropStart?_eq_some {start cs rest : List Char} :
    dropStart? start cs = some rest ↔ cs = start ++ rest := by
  induction start generalizing cs with
  | nil => simp [dropStart?]
  | cons a start ih =>
    cases cs with
    | nil => simp [dropStart?]
    | cons c cs =>
      simp only [dropStart?, List.cons_append, List.cons.injEq]
      split
      · next h => rw [ih]; simp [h]
      · next h => simp [Ne.symm h]

/-- What follows `start` in a text that begins with it. -/
def after? (start s : String) : Option String :=
  (dropStart? start.toList s.toList).map String.ofList

/-- Whether the text begins with `start`. -/
def beginsWith (start s : String) : Bool := start.toList.isPrefixOf s.toList

/-- What stands before the first `c` and what stands behind it. -/
def cut? (c : Char) (s : String) : Option (String × String) :=
  match s.toList.dropWhile (· != c) with
  | [] => none
  | _ :: rest => some (.ofList (s.toList.takeWhile (· != c)), .ofList rest)

/-- The text without its last character, if that is `c`. -/
def beforeLast? (c : Char) (s : String) : Option String :=
  if s.toList.getLast? = some c then some (.ofList s.toList.dropLast) else none

end FlatGraph.Text
