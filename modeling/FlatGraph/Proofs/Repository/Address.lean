import FlatGraph.Proofs.Model.History
import FlatGraph.Proofs.Path
import FlatGraph.Proofs.Text.Utf8
import FlatGraph.Repository

/-!
# Addresses

Hashes of entities, sets of the ids of a keyspace and index sets stand side by side in one store.
An *address* says what a key is for: a keyspace with what stands behind it in the key, which is a
colon and an id, a dot and an index fragment, or nothing.

**Theorem (`keys_apart`).** Let the keyspaces be non-empty and free of dots and colons, as those of
registered types are, and ids and fragments be any texts. Then

* no two addresses share a key, as texts or as bytes,
* the keys that begin with a keyspace and a dot are those of its index sets, and
* the key of an entity with an id reads as a pointer to it.

Whatever reads as a pointer is made of the keyspace and the id that it is read as.

Ids and fragments may hold dots, colons and the names of other keyspaces. All the same, the first
dot or colon of a key ends the keyspace, as there is none in the keyspace itself, and tells what
stands behind (`eq_of_append_eq`). The bytes of a text are those of no other, and they begin the
bytes of another only where the texts do, so that what holds of the texts holds of the bytes.
-/

namespace FlatGraph

open EntityType (isKeyspace isKeyspace_iff)

/-- What a key of a repository stands for. -/
inductive Address where
  | entity (keyspace id : String)
  | members (keyspace : String)
  | index (keyspace fragment : String)
deriving DecidableEq

namespace Address

/-- The keyspace of an address. -/
def keyspace : Address → String
  | entity keyspace _ => keyspace
  | members keyspace => keyspace
  | index keyspace _ => keyspace

/-- The key of an address. -/
def key : Address → Bytes
  | entity keyspace id => Repository.entityKey keyspace id
  | members keyspace => Repository.membersKey keyspace
  | index keyspace fragment => Repository.indexKey keyspace fragment

/-- The key of an address, as a text. -/
def text : Address → String
  | entity keyspace id => Path.entityKey keyspace id
  | members keyspace => keyspace
  | index keyspace fragment => Path.indexKey keyspace fragment

/-- The keyspace of the address can be told apart from what stands behind it. -/
def Proper (a : Address) : Prop := isKeyspace a.keyspace = true

/-- What stands behind the keyspace in a key. -/
def tail : Address → List Char
  | entity _ id => ':' :: id.toList
  | members _ => []
  | index _ fragment => '.' :: fragment.toList

theorem key_eq (a : Address) : a.key = Utf8.encode a.text := by
  cases a <;> rfl

theorem toList_text (a : Address) : a.text.toList = a.keyspace.toList ++ a.tail := by
  cases a <;> simp [text, Path.entityKey, Path.indexKey, keyspace, tail]

theorem eq_of_tail_eq {a b : Address} (hk : a.keyspace = b.keyspace) (ht : a.tail = b.tail) :
    a = b := by
  cases a <;> cases b <;> simp_all [keyspace, tail, String.toList_inj]

/-! ## The end of a keyspace -/

/-- A character of a keyspace. -/
def isInner (c : Char) : Bool := c != '.' && c != ':'

theorem isInner_of_isKeyspace {s : String} (h : isKeyspace s = true) :
    ∀ c ∈ s.toList, isInner c = true := by
  intro c hc
  obtain ⟨-, hdot, hcolon⟩ := isKeyspace_iff.1 h
  simp only [isInner, Bool.and_eq_true, bne_iff_ne]
  exact ⟨fun he => hdot (he ▸ hc), fun he => hcolon (he ▸ hc)⟩

theorem takeWhile_isInner {cs : List Char} (h : ∀ c ∈ cs, isInner c = true) {ds : List Char}
    (hd : ∀ d ∈ ds.head?, isInner d = false) : (cs ++ ds).takeWhile isInner = cs := by
  rw [List.takeWhile_append_of_pos h]
  cases ds with
  | nil => simp
  | cons d ds =>
    have hd : isInner d = false := hd d rfl
    rw [List.takeWhile_cons_of_neg (by simp [hd]), List.append_nil]

/-- Keyspaces are told apart from what stands behind them. -/
theorem eq_of_append_eq {s t : String} (hs : isKeyspace s = true) (ht : isKeyspace t = true)
    {cs ds : List Char} (hc : ∀ c ∈ cs.head?, isInner c = false)
    (hd : ∀ d ∈ ds.head?, isInner d = false) (h : s.toList ++ cs = t.toList ++ ds) :
    s = t ∧ cs = ds := by
  have hst := congrArg (List.takeWhile isInner) h
  rw [takeWhile_isInner (isInner_of_isKeyspace hs) hc,
    takeWhile_isInner (isInner_of_isKeyspace ht) hd, String.toList_inj] at hst
  subst hst
  exact ⟨rfl, List.append_cancel_left h⟩

theorem isInner_head_tail (a : Address) : ∀ c ∈ a.tail.head?, isInner c = false := by
  cases a <;> simp [tail, isInner]

/-! ## Keys -/

variable {a b : Address}

theorem text_injective (ha : a.Proper) (hb : b.Proper) (h : a.text = b.text) : a = b := by
  have hl := congrArg String.toList h
  rw [toList_text, toList_text] at hl
  obtain ⟨hk, ht⟩ := eq_of_append_eq ha hb a.isInner_head_tail b.isInner_head_tail hl
  exact eq_of_tail_eq hk ht

/-- **A key is that of one address.** -/
theorem key_injective (ha : a.Proper) (hb : b.Proper) (h : a.key = b.key) : a = b := by
  rw [key_eq, key_eq, Utf8.encode_inj] at h
  exact text_injective ha hb h

theorem key_inj (ha : a.Proper) (hb : b.Proper) : a.key = b.key ↔ a = b :=
  ⟨key_injective ha hb, congrArg key⟩

theorem beginsWith_text_iff {keyspace : String} (hk : isKeyspace keyspace = true)
    (ha : a.Proper) :
    Text.beginsWith (Path.indexStart keyspace) a.text = true ↔
      ∃ fragment, a = index keyspace fragment := by
  have hstart : (Path.indexStart keyspace).toList = keyspace.toList ++ ['.'] := by
    simp [Path.indexStart, Path.subtreeStart]
  rw [Text.beginsWith_iff_isPrefix, toList_text, hstart]
  constructor
  · rintro ⟨rest, h⟩
    rw [List.append_assoc] at h
    obtain ⟨hks, ht⟩ := eq_of_append_eq hk ha (by simp [isInner]) a.isInner_head_tail h
    refine ⟨.ofList rest, eq_of_tail_eq hks.symm ?_⟩
    simpa [tail] using ht.symm
  · rintro ⟨fragment, rfl⟩
    exact ⟨fragment.toList, by simp [Address.keyspace, tail]⟩

/-- The keys that begin with a keyspace and a dot are those of its index sets. -/
theorem isPrefix_key_iff {keyspace : String} (hk : isKeyspace keyspace = true) (ha : a.Proper) :
    Utf8.encode (Path.indexStart keyspace) <+: a.key ↔ ∃ fragment, a = index keyspace fragment := by
  rw [key_eq, Utf8.encode_isPrefix_iff, ← Text.beginsWith_iff_isPrefix]
  exact beginsWith_text_iff hk ha

/-- Keyspaces that satisfy `p` keep the keys of a repository apart. -/
structure KeepsApart (p : String → Prop) : Prop where
  text_inj : ∀ a b : Address, p a.keyspace → p b.keyspace → a.text = b.text → a = b
  key_inj : ∀ a b : Address, p a.keyspace → p b.keyspace → a.key = b.key → a = b
  /-- Of all keys, those that begin with a keyspace and a dot are the ones of its index sets. -/
  beginsWith_iff : ∀ keyspace, p keyspace → ∀ a : Address, p a.keyspace →
    (Text.beginsWith (Path.indexStart keyspace) a.text = true ↔
      ∃ fragment, a = index keyspace fragment)
  isPrefix_iff : ∀ keyspace, p keyspace → ∀ a : Address, p a.keyspace →
    (Utf8.encode (Path.indexStart keyspace) <+: a.key ↔ ∃ fragment, a = index keyspace fragment)
  /-- The key of an entity reads as a pointer to it. -/
  pointer : ∀ keyspace id, p keyspace → id ≠ "" →
    Path.splitPointer? (entity keyspace id).text = some (keyspace, id)

theorem keepsApart {p : String → Prop} (h : ∀ s, p s → isKeyspace s = true) : KeepsApart p where
  text_inj _ _ ha hb := text_injective (h _ ha) (h _ hb)
  key_inj _ _ ha hb := key_injective (h _ ha) (h _ hb)
  beginsWith_iff _ hk _ ha := beginsWith_text_iff (h _ hk) (h _ ha)
  isPrefix_iff _ hk _ ha := isPrefix_key_iff (h _ hk) (h _ ha)
  pointer _ _ hk hid := by
    obtain ⟨hne, -, hcolon⟩ := isKeyspace_iff.1 (h _ hk)
    exact Path.splitPointer?_entityKey hcolon hne hid

/-- **Keys never collide, and pointers are read back.** The keyspaces of the types that are
registered, by whatever calls, are non-empty and free of dots and colons, and such keyspaces keep
keys apart. -/
theorem keys_apart :
    KeepsApart (fun s => s ≠ "" ∧ '.' ∉ s.toList ∧ ':' ∉ s.toList) ∧
    (∀ (ts : List EntityType) name t, (Registry.serveEach {} ts).find? name = some t →
      t.keyspace ≠ "" ∧ '.' ∉ t.keyspace.toList ∧ ':' ∉ t.keyspace.toList) ∧
    ∀ pointer keyspace id, Path.splitPointer? pointer = some (keyspace, id) ↔
      pointer = Path.entityKey keyspace id ∧ keyspace ≠ "" ∧ id ≠ "" ∧ ':' ∉ keyspace.toList := by
  refine ⟨keepsApart fun _ => isKeyspace_iff.2, fun ts name t ht => ?_,
    fun _ _ _ => Path.splitPointer?_eq_some_iff⟩
  exact isKeyspace_iff.1 ((Registry.Built.empty.serveEach ts).sound ht).2.keyspace

/-- An id that looks like the key of an index set of the same keyspace. -/
theorem keys_apart_clerk :
    ∃ t, (Registry.serveEach {} Registry.office).find? "Clerk" = some t ∧
      Path.splitPointer? (entity t.keyspace "people.desk:1").text =
        some (t.keyspace, "people.desk:1") ∧
      ¬ Text.beginsWith (Path.indexStart t.keyspace)
        (entity t.keyspace "people.desk:1").text = true := by
  obtain ⟨hapart, hregistered, -⟩ := keys_apart
  have hsome : ((Registry.serveEach {} Registry.office).find? "Clerk").isSome = true := by
    decide +kernel
  obtain ⟨t, ht⟩ := Option.isSome_iff_exists.1 hsome
  have hk := hregistered Registry.office "Clerk" t ht
  refine ⟨t, ht, hapart.pointer _ _ hk (by decide), ?_⟩
  rw [hapart.beginsWith_iff t.keyspace hk (entity t.keyspace "people.desk:1") hk]
  rintro ⟨fragment, hindex⟩
  cases hindex

/-- Keyspaces with dots and colons would not keep keys apart. -/
example : (entity "a:b" "c").text = (entity "a" "b:c").text ∧
    (index "a.b" "c").text = (index "a" "b.c").text ∧
    (members "a.b").text = (index "a" "b").text := by decide

end Address

end FlatGraph
