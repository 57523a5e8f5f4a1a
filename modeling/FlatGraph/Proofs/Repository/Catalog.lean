import FlatGraph.Proofs.Repository.Address
import FlatGraph.Proofs.Store

/-!
# Catalogs of entities

A catalog is what a repository stands for: the entities that are stored. Its image (`Catalog.image`)
is the store that holds, for each of them, the hash of the record, the id in the set of its
keyspace, and the id in the set of each index fragment of the record.

**Theorem (`content?_image`, `exists_address`).** The image holds at each address what the catalog
has there, and holds nothing else.

No two addresses share a key (`Address.key_injective`), so that what is stored at one is not found
at another, and a scan for the index sets of a keyspace finds no other keys
(`Address.isPrefix_key_iff`).
-/

namespace FlatGraph

open EntityType (isKeyspace)
open Repository (Entity)

/-! ## Catalogs -/

/-- The entities that are stored. -/
abbrev Catalog := List Entity

namespace Catalog

/-- The record of the entity with an id. -/
def get? (m : Catalog) (keyspace id : String) : Option Record :=
  (m.find? fun e => e.keyspace = keyspace ∧ e.id = id).map (·.record)

/-- The ids of the entities of a keyspace whose records satisfy `p`, in ascending order. -/
def idsOf (m : Catalog) (keyspace : String) (p : Record → Bool) : List Bytes :=
  Sorted.ofList ((m.filter fun e => e.keyspace = keyspace ∧ p e.record).map (Utf8.encode ·.id))

/-- The ids of all entities of a keyspace. -/
def ids (m : Catalog) (keyspace : String) : List Bytes := m.idsOf keyspace fun _ => true

/-- The ids of the entities with an index fragment. -/
def having (m : Catalog) (keyspace fragment : String) : List Bytes :=
  m.idsOf keyspace (·.fragments.contains fragment)

/-- Takes out the entity with an id. -/
def delete (m : Catalog) (keyspace id : String) : Catalog :=
  m.filter fun e => ¬ (e.keyspace = keyspace ∧ e.id = id)

/-- Takes out all entities of a keyspace. -/
def deleteAllOf (m : Catalog) (keyspace : String) : Catalog := m.filter (¬ ·.keyspace = keyspace)

/-- Puts an entity in place of the one with the same id. -/
def put (m : Catalog) (e : Entity) : Catalog := m.delete e.keyspace e.id ++ [e]

/-- What a catalog has at an address. -/
def content? (m : Catalog) : Address → Option Content
  | .entity keyspace id => (m.get? keyspace id).map (.hash ·.entries.toRaw)
  | .members keyspace => Store.ofMembers (m.ids keyspace)
  | .index keyspace fragment => Store.ofMembers (m.having keyspace fragment)

/-- The addresses at which a catalog has something. -/
def addresses (m : Catalog) : List Address :=
  m.flatMap fun e =>
    .entity e.keyspace e.id :: .members e.keyspace ::
      e.record.fragments.map (.index e.keyspace)

/-- The store that holds at each address what the catalog has there. -/
def image (m : Catalog) : Store :=
  { entries := Sorted.ofEntries <| m.addresses.filterMap fun a => (m.content? a).map (a.key, ·) }

/-- The keyspaces of the entities are ones, and their records know them. -/
def Proper (m : Catalog) : Prop :=
  ∀ e ∈ m, isKeyspace e.keyspace = true ∧ e.record.keyspace = some e.keyspace

/-! ## Views -/

theorem get?_eq_some {m : Catalog} {keyspace id : String} {record : Record}
    (h : m.get? keyspace id = some record) :
    ∃ e ∈ m, e.keyspace = keyspace ∧ e.id = id ∧ e.record = record := by
  obtain ⟨e, he, hr⟩ := Option.map_eq_some_iff.1 h
  have hp := List.find?_some he
  obtain ⟨hk, hid⟩ := of_decide_eq_true hp
  exact ⟨e, List.mem_of_find?_eq_some he, hk, hid, hr⟩

theorem mem_idsOf_iff {m : Catalog} {keyspace : String} {p : Record → Bool} {b : Bytes} :
    b ∈ m.idsOf keyspace p ↔
      ∃ e ∈ m, (e.keyspace = keyspace ∧ p e.record = true) ∧ Utf8.encode e.id = b := by
  simp [idsOf, Sorted.mem_ofList, and_assoc]

theorem pairwise_idsOf (m : Catalog) (keyspace : String) (p : Record → Bool) :
    (m.idsOf keyspace p).Pairwise (· < ·) := Sorted.pairwise_ofList _

theorem nodup_idsOf (m : Catalog) (keyspace : String) (p : Record → Bool) :
    (m.idsOf keyspace p).Nodup := Sorted.nodup_of_pairwise (m.pairwise_idsOf keyspace p)

theorem mem_ids_iff {m : Catalog} {keyspace : String} {b : Bytes} :
    b ∈ m.ids keyspace ↔ ∃ e ∈ m, e.keyspace = keyspace ∧ Utf8.encode e.id = b := by
  simp [ids, mem_idsOf_iff]

theorem mem_having_iff {m : Catalog} {keyspace fragment : String} {b : Bytes} :
    b ∈ m.having keyspace fragment ↔
      ∃ e ∈ m, (e.keyspace = keyspace ∧ fragment ∈ e.record.fragments) ∧ Utf8.encode e.id = b := by
  simp [having, mem_idsOf_iff]

theorem mem_ids_of_get? {m : Catalog} {keyspace id : String} (h : m.get? keyspace id ≠ none) :
    Utf8.encode id ∈ m.ids keyspace := by
  obtain ⟨record, hr⟩ := Option.ne_none_iff_exists'.1 h
  obtain ⟨e, he, hk, hid, -⟩ := get?_eq_some hr
  exact mem_ids_iff.2 ⟨e, he, hk, by rw [hid]⟩

theorem mem_ids_of_mem_having {m : Catalog} {keyspace fragment : String} {b : Bytes}
    (h : b ∈ m.having keyspace fragment) : b ∈ m.ids keyspace := by
  obtain ⟨e, he, ⟨hk, -⟩, hb⟩ := mem_having_iff.1 h
  exact mem_ids_iff.2 ⟨e, he, hk, hb⟩

/-! ## The image -/

theorem ne_nil_of_ofMembers {members : List Bytes} {c : Content}
    (h : Store.ofMembers members = some c) : ∃ b, b ∈ members := by
  cases members with
  | nil => cases h
  | cons b bs => exact ⟨b, List.mem_cons_self⟩

theorem mem_addresses {m : Catalog} {a : Address} {c : Content} (h : m.content? a = some c) :
    a ∈ m.addresses := by
  rw [addresses, List.mem_flatMap]
  cases a with
  | entity keyspace id =>
    obtain ⟨record, hr, -⟩ := Option.map_eq_some_iff.1 h
    obtain ⟨e, he, rfl, rfl, -⟩ := get?_eq_some hr
    exact ⟨e, he, by simp⟩
  | members keyspace =>
    obtain ⟨b, hb⟩ := ne_nil_of_ofMembers h
    obtain ⟨e, he, rfl, -⟩ := mem_ids_iff.1 hb
    exact ⟨e, he, by simp⟩
  | index keyspace fragment =>
    obtain ⟨b, hb⟩ := ne_nil_of_ofMembers h
    obtain ⟨e, he, ⟨rfl, hf⟩, -⟩ := mem_having_iff.1 hb
    exact ⟨e, he, by simp [hf]⟩

theorem proper_of_mem_addresses {m : Catalog} (hm : m.Proper) {a : Address}
    (h : a ∈ m.addresses) : a.Proper := by
  obtain ⟨e, he, ha⟩ := List.mem_flatMap.1 h
  have hk := (hm e he).1
  simp only [List.mem_cons, List.mem_map] at ha
  rcases ha with rfl | rfl | ⟨fragment, -, rfl⟩ <;> exact hk

theorem lookup_image_iff {m : Catalog} (hm : m.Proper) {key : Bytes} {c : Content} :
    m.image.content? key = some c ↔ ∃ a, a.Proper ∧ a.key = key ∧ m.content? a = some c := by
  have hmem : ∀ key c,
      (key, c) ∈ m.addresses.filterMap (fun a => (m.content? a).map (a.key, ·)) ↔
        ∃ a, a.Proper ∧ a.key = key ∧ m.content? a = some c := by
    intro key c
    simp only [List.mem_filterMap, Option.map_eq_some_iff, Prod.mk.injEq]
    constructor
    · rintro ⟨a, ha, d, hd, hkey, rfl⟩
      exact ⟨a, proper_of_mem_addresses hm ha, hkey, hd⟩
    · rintro ⟨a, -, hkey, hc⟩
      exact ⟨a, mem_addresses hc, c, hc, hkey, rfl⟩
  rw [← hmem]
  refine Sorted.lookup_ofEntries_eq_some_iff ?_
  intro k v w hv hw
  obtain ⟨a, ha, hak, hav⟩ := (hmem _ _).1 hv
  obtain ⟨b, hb, hbk, hbw⟩ := (hmem _ _).1 hw
  have hab := Address.key_injective ha hb (hak.trans hbk.symm)
  subst hab
  exact Option.some.inj (hav.symm.trans hbw)

/-- **The image holds at each address what the catalog has there.** -/
theorem content?_image {m : Catalog} (hm : m.Proper) {a : Address} (ha : a.Proper) :
    m.image.content? a.key = m.content? a := by
  ext c
  rw [lookup_image_iff hm]
  constructor
  · rintro ⟨b, hb, hkey, hc⟩
    rwa [← Address.key_injective hb ha hkey]
  · intro hc
    exact ⟨a, ha, rfl, hc⟩

/-- The image holds nothing else. -/
theorem exists_address {m : Catalog} (hm : m.Proper) {key : Bytes}
    (h : m.image.content? key ≠ none) : ∃ a, a.Proper ∧ a.key = key ∧ m.content? a ≠ none := by
  obtain ⟨c, hc⟩ := Option.ne_none_iff_exists'.1 h
  obtain ⟨a, ha, hkey, hac⟩ := (lookup_image_iff hm).1 hc
  exact ⟨a, ha, hkey, by simp [hac]⟩

theorem orderly_image (m : Catalog) : m.image.Orderly :=
  ⟨rfl, Sorted.pairwise_ofEntries _⟩

/-- The scan for the index sets of a keyspace finds those that have members. -/
theorem mem_indexKeys_iff {m : Catalog} (hm : m.Proper) {keyspace : String}
    (hk : isKeyspace keyspace = true) {key : Bytes} :
    key ∈ m.image.keys.filter (Utf8.encode (Path.indexStart keyspace)).isPrefixOf ↔
      ∃ fragment, key = (Address.index keyspace fragment).key ∧
        m.having keyspace fragment ≠ [] := by
  rw [List.mem_filter, Store.mem_keys_iff, List.isPrefixOf_iff_prefix]
  constructor
  · rintro ⟨hne, hp⟩
    obtain ⟨a, ha, rfl, hc⟩ := exists_address hm hne
    obtain ⟨fragment, rfl⟩ := (Address.isPrefix_key_iff hk ha).1 hp
    refine ⟨fragment, rfl, ?_⟩
    intro hnil
    exact hc (by rw [content?, hnil, Store.ofMembers_nil])
  · rintro ⟨fragment, rfl, hne⟩
    have ha : (Address.index keyspace fragment).Proper := hk
    refine ⟨?_, (Address.isPrefix_key_iff hk ha).2 ⟨fragment, rfl⟩⟩
    rw [content?_image hm ha, content?, Store.ofMembers, if_neg hne]
    simp

end Catalog

end FlatGraph
