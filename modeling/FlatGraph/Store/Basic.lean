import FlatGraph.Sorted
import FlatGraph.Store.Error

/-!
# The store

A store maps keys to hashes and sets. A hash has fields in the order in which they were first
written, a set has its members in ascending order, and the keys are in ascending order too. A set
is there as long as it has members.

A store that was closed refuses every operation but to be cleared; what it holds stays as it was.
Operations that change the store yield the changed one, so that one that is refused changes
nothing.
-/

namespace FlatGraph

/-- What a key holds. -/
inductive Content where
  | hash (fields : List (Bytes × Bytes))
  | set (members : List Bytes)
deriving DecidableEq, Repr

/-- A store. -/
structure Store where
  /-- The keys with what they hold, in ascending order. -/
  entries : List (Bytes × Content) := []
  isClosed : Bool := false
deriving DecidableEq, Repr

namespace Store

/-- What a key holds. -/
def content? (s : Store) (key : Bytes) : Option Content := s.entries.lookup key

/-- The keys in ascending order. -/
def keys (s : Store) : List Bytes := s.entries.map (·.1)

/-- Lets a key hold something else. -/
def hold (s : Store) (key : Bytes) (c : Content) : Store :=
  { s with entries := Sorted.put key c s.entries }

/-- Lets a key hold nothing. -/
def drop (s : Store) (key : Bytes) : Store := { s with entries := Sorted.erase key s.entries }

/-- Takes everything out of the store. -/
def clear (s : Store) : Store := { s with entries := [] }

/-- Closes the store. -/
def close (s : Store) : Store := { s with isClosed := true }

/-- Refuses a store that is closed. -/
def whenOpen {α : Type} (s : Store) (f : Except StoreError α) : Except StoreError α :=
  if s.isClosed then .error .closed else f

/-! ## Hashes -/

/-- The fields of a hash; a key that holds nothing is a hash without fields. -/
def fields (s : Store) (key : Bytes) : Except StoreError (List (Bytes × Bytes)) :=
  s.whenOpen <| match s.content? key with
    | some (.hash fields) => .ok fields
    | some (.set _) => .error (.notHash key)
    | none => .ok []

/-- Writes a field, in its place if it is there and at the end if it is not. -/
def writeField (field value : Bytes) : List (Bytes × Bytes) → List (Bytes × Bytes)
  | [] => [(field, value)]
  | e :: es => if e.1 = field then (field, value) :: es else e :: writeField field value es

/-- Writes fields to a hash, which comes to be if it is not there. -/
def putFields (s : Store) (key : Bytes) (fields : List (Bytes × Bytes)) :
    Except StoreError Store := do
  let old ← s.fields key
  pure (s.hold key (.hash (fields.foldl (fun es f => writeField f.1 f.2 es) old)))

/-- Deletes a key, and says whether it was there. -/
def delete (s : Store) (key : Bytes) : Except StoreError (Bool × Store) :=
  s.whenOpen (.ok ((s.content? key).isSome, s.drop key))

/-! ## Sets -/

/-- The members of a set; a key that holds nothing is a set without members. -/
def members (s : Store) (key : Bytes) : Except StoreError (List Bytes) :=
  s.whenOpen <| match s.content? key with
    | some (.set members) => .ok members
    | some (.hash _) => .error (.notSet key)
    | none => .ok []

/-- Adds a member to a set, and says whether it is new. -/
def addMember (s : Store) (key member : Bytes) : Except StoreError (Bool × Store) := do
  let old ← s.members key
  pure (!old.contains member, s.hold key (.set (Sorted.insert member old)))

/-- Takes a member out of a set, and says whether it was there. -/
def removeMember (s : Store) (key member : Bytes) : Except StoreError (Bool × Store) := do
  let old ← s.members key
  let left := old.erase member
  pure (old.contains member, if left.isEmpty then s.drop key else s.hold key (.set left))

/-- Whether a set has a member. -/
def isMember (s : Store) (key member : Bytes) : Except StoreError Bool :=
  (·.contains member) <$> s.members key

/-- The number of members of a set. -/
def card (s : Store) (key : Bytes) : Except StoreError Nat := List.length <$> s.members key

/-! ## Scans -/

/-- The keys that begin with `start`, in ascending order: as they stand together in that order,
`start` itself first, the scan begins there and ends with the first other key. -/
def keysFrom (s : Store) (start : Bytes) : Except StoreError (List Bytes) :=
  s.whenOpen (.ok ((s.keys.dropWhile (· < start)).takeWhile start.isPrefixOf))

end Store

end FlatGraph
