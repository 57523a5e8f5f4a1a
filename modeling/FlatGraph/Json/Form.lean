import FlatGraph.Json.Tree

/-!
# Forms

Declarations are filled-in forms: records of named members. A record is given as an object, in
which unknown members are passed over and a known one may not be repeated, or as an array of its
members in the order of their declaration, of which the last ones may be missing. A choice among
names is given by the name, or by an object whose only member has that name and holds null.
-/

namespace FlatGraph.Json.Tree

/-- The text of a string. -/
def text? : Tree → Option String
  | .string s => s
  | _ => none

/-- The value of a flag. -/
def flag? : Tree → Option Bool
  | .bool b => some b
  | _ => none

/-- The text of a string that may be left out by a null. -/
def textOrNull? : Tree → Option (Option String)
  | .null => some none
  | t => some <$> t.text?

/-- The items of an array. -/
def items? : Tree → Option (List Tree)
  | .array items => some items
  | _ => none

/-- The items of an array, read one by one. -/
def list? {α : Type} (read : Tree → Option α) (t : Tree) : Option (List α) :=
  t.items? >>= (·.mapM read)

/-- The known members of an object: all names have to be texts, and no known one may come twice. -/
def knownMembers? (names : List String) (members : List (Option String × Tree)) :
    Option (List (String × Tree)) := do
  let members ← members.mapM fun m => m.1.map (·, m.2)
  let known := members.filter (names.contains ·.1)
  if (known.map (·.1)).Nodup then some known else none

/-- The members of a record that are given, by name. -/
def record? (names : List String) : Tree → Option (List (String × Tree))
  | .object members => knownMembers? names members
  | .array items => if items.length ≤ names.length then some (names.zip items) else none
  | _ => none

/-- A member that has to be given. -/
def required? {α : Type} (members : List (String × Tree)) (name : String)
    (read : Tree → Option α) : Option α :=
  members.lookup name >>= read

/-- A member with a default. -/
def optional? {α : Type} (members : List (String × Tree)) (name : String)
    (read : Tree → Option α) (default : α) : Option α :=
  match members.lookup name with
  | some t => read t
  | none => some default

/-- A choice among names. -/
def choice? {α : Type} (choices : List (String × α)) : Tree → Option α
  | .string (some name) => choices.lookup name
  | .object [(some name, .null)] => choices.lookup name
  | _ => none

end FlatGraph.Json.Tree
