import FlatGraph.Error
import FlatGraph.Path
import FlatGraph.Sorted
import FlatGraph.Text.Utf8

/-!
# Flat records

The hash form of one root entity: entries from paths to bytes, in the order in which their keys
were first written, together with the keyspace and the id of the entity and the index fragments of
its values.

Empty keys and empty values are never stored (`Entries`). Two records are equal if they have the
same entries, in whatever order; keyspace, id and fragments do not count.
-/

namespace FlatGraph

/-! ## Entries -/

/-- A map from keys to bytes that remembers the order in which the keys were first written, and
holds no empty key and no empty value. -/
structure Entries where
  toList : List (String × Bytes)
  distinct : (toList.map Prod.fst).Nodup
  filled : ∀ e ∈ toList, e.1 ≠ "" ∧ e.2 ≠ []
deriving DecidableEq

namespace Entries

/-- No entries. -/
def empty : Entries := ⟨[], by simp, by simp⟩

instance : Inhabited Entries := ⟨empty⟩

/-- Writes a value at a key, in its place if it is there and at the end if it is not. -/
def write (key : String) (value : Bytes) : List (String × Bytes) → List (String × Bytes)
  | [] => [(key, value)]
  | e :: es => if e.1 = key then (key, value) :: es else e :: write key value es

theorem map_fst_write (key : String) (value : Bytes) (es : List (String × Bytes)) :
    (write key value es).map Prod.fst =
      if key ∈ es.map Prod.fst then es.map Prod.fst else es.map Prod.fst ++ [key] := by
  induction es with
  | nil => simp [write]
  | cons e es ih =>
    by_cases h : e.1 = key
    · simp [write, h]
    · have h' : key ≠ e.1 := fun he => h he.symm
      simp only [write, h, if_false, List.map_cons, ih, List.mem_cons, h', false_or]
      split <;> simp

theorem eq_or_mem_of_mem_write {key : String} {value : Bytes} {es : List (String × Bytes)}
    {e : String × Bytes} (h : e ∈ write key value es) : e = (key, value) ∨ e ∈ es := by
  induction es with
  | nil => exact Or.inl (by simpa [write] using h)
  | cons a es ih =>
    unfold write at h
    split at h
    · rcases List.mem_cons.1 h with h | h
      · exact Or.inl h
      · exact Or.inr (List.mem_cons_of_mem _ h)
    · rcases List.mem_cons.1 h with h | h
      · exact Or.inr (h ▸ List.mem_cons_self)
      · exact (ih h).imp_right (List.mem_cons_of_mem _)

/-- Puts a value at a key. An empty key or value is ignored. -/
def put (es : Entries) (key : String) (value : Bytes) : Entries :=
  if h : key = "" ∨ value = [] then es
  else
    { toList := write key value es.toList
      distinct := by
        rw [map_fst_write]
        split
        · exact es.distinct
        · next hk => exact List.nodup_append.2 ⟨es.distinct, by simp, by
            intro a ha b hb
            cases List.mem_singleton.1 hb
            exact fun hab => hk (hab ▸ ha)⟩
      filled := fun e he => by
        rcases eq_or_mem_of_mem_write he with rfl | he
        · exact ⟨fun hk => h (Or.inl hk), fun hv => h (Or.inr hv)⟩
        · exact es.filled e he }

/-- Puts the entries of a list one after another. -/
def putAll (es : Entries) (xs : List (String × Bytes)) : Entries :=
  xs.foldl (fun es e => es.put e.1 e.2) es

/-- The value at a key. -/
def get? (es : Entries) (key : String) : Option Bytes := es.toList.lookup key

/-- Whether there is a value at a key. -/
def contains (es : Entries) (key : String) : Bool := (es.get? key).isSome

/-- The entries whose keys satisfy `p`, in their order. -/
def filter (es : Entries) (p : String → Bool) : Entries where
  toList := es.toList.filter (p ·.1)
  distinct := es.distinct.sublist (List.filter_sublist.map _)
  filled := fun e he => es.filled e (List.mem_filter.1 he).1

/-- The number of entries. -/
def size (es : Entries) : Nat := es.toList.length

/-- The entries whose keys begin with `start`, in their order. -/
def below (es : Entries) (start : String) : List (String × Bytes) :=
  es.toList.filter (Text.beginsWith start ·.1)

/-- Whether there are entries below a path. -/
def hasSubtree (es : Entries) (path : String) : Bool :=
  es.toList.any (Text.beginsWith (Path.subtreeStart path) ·.1)

/-- The paths of the elements whose paths begin with `start`, each at its first place. -/
def elementPaths (es : Entries) (start : String) : List String :=
  (es.toList.filterMap (Path.elementPath? ·.1 start)).eraseDups

/-- What lies below a path, under its full keys, with the type hint of the path as a hint of its
own. -/
def extract (es : Entries) (path : String) : Entries :=
  let sub := es.filter (Text.beginsWith (Path.subtreeStart path))
  match es.get? (Path.hintOf path) with
  | some type => sub.put Path.hint type
  | none => sub

/-- Whether two maps have the same value at each key. -/
def same (as bs : Entries) : Bool :=
  as.size == bs.size && as.toList.all fun e => bs.get? e.1 == some e.2

/-- The entries with their keys as bytes. -/
def toRaw (es : Entries) : List (Bytes × Bytes) :=
  es.toList.map fun e => (Utf8.encode e.1, e.2)

end Entries

/-! ## Records -/

/-- The hash form of a root entity. -/
structure Record where
  keyspace : Option String := none
  id : Option String := none
  entries : Entries := .empty
  /-- The index fragments of the entity's values, in ascending order. -/
  fragments : List String := []
deriving DecidableEq

namespace Record

/-- Puts a value at a key. -/
def put (r : Record) (key : String) (value : Bytes) : Record :=
  { r with entries := r.entries.put key value }

/-- Adds an index fragment. -/
def addFragment (r : Record) (fragment : String) : Record :=
  { r with fragments := Sorted.insert fragment r.fragments }

/-- The record of what lies below a path. -/
def extract (r : Record) (path : String) : Record := { entries := r.entries.extract path }

/-- The storage key of the entity, if keyspace and id are known. -/
def rootKey? (r : Record) : Option String := do
  pure (Path.entityKey (← r.keyspace) (← r.id))

/-- The storage keys of the index sets that the entity belongs to. -/
def indexKeys (r : Record) : List String :=
  match r.keyspace with
  | some keyspace => r.fragments.map (Path.indexKey keyspace)
  | none => []

/-- The key that raw bytes stand for. -/
def keyOfRaw (raw : Bytes) : Except Error String :=
  match Utf8.decode raw with
  | .ok key => .ok key
  | .error _ =>
    let text := Utf8.lossy raw
    .error (.conversion text text (.conversion ScalarType.text.name text .keyNotText))

/-- The record of entries as a store holds them; their keys have to be texts. -/
def ofRaw (xs : List (Bytes × Bytes)) : Except Error Record := do
  let es ← xs.mapM fun e => do pure (← keyOfRaw e.1, e.2)
  pure { entries := Entries.empty.putAll es }

/-- The record of entries given as texts. -/
def ofTexts (xs : List (String × String)) : Record :=
  { entries := Entries.empty.putAll (xs.map fun e => (e.1, Utf8.encode e.2)) }

/-- The values as texts, sorted by their keys. -/
def toTexts (r : Record) : List (String × String) :=
  Sorted.ofEntries (r.entries.toList.map fun e => (e.1, Utf8.lossy e.2))

/-- The entries as lines of text. -/
def lines (r : Record) : String :=
  String.join (r.entries.toList.map fun e => e.1 ++ " = " ++ Utf8.lossy e.2 ++ "\n")

end Record

end FlatGraph
