import FlatGraph.Store.Basic

/-!
# Changes of the store

Storing and deleting an entity takes several changes of the store. They are carried out one after
another; a change that is refused ends the sequence, and those before it remain.
-/

namespace FlatGraph

/-- A change of the store. -/
inductive Change where
  | putFields (key : Bytes) (fields : List (Bytes × Bytes))
  | delete (key : Bytes)
  | addMember (key member : Bytes)
  | removeMember (key member : Bytes)
deriving DecidableEq, Repr

namespace Store

/-- Carries out a change. -/
def change (s : Store) : Change → Except StoreError Store
  | .putFields key fields => s.putFields key fields
  | .delete key => (·.2) <$> s.delete key
  | .addMember key member => (·.2) <$> s.addMember key member
  | .removeMember key member => (·.2) <$> s.removeMember key member

/-- Carries out changes up to the first one that is refused; yields what refused it, if any did,
and the store after those before it. -/
def changeAll (s : Store) : List Change → Except StoreError Unit × Store
  | [] => (.ok (), s)
  | c :: cs =>
    match s.change c with
    | .ok s => s.changeAll cs
    | .error e => (.error e, s)

end Store

end FlatGraph
