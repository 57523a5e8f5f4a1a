import FlatGraph.Proofs.Entries
import FlatGraph.Proofs.Repository.Load

/-!
# Storing and deleting, on catalogs

**Theorems (`save_image`, `removal_image`, `removalOfAll_image`).** In the image of a catalog,
storing an entity, deleting one and deleting all of a keyspace go through, and what remains is the
image of the catalog with that done.

Each sequence of changes is looked at address by address (`changeAll_image`). At an index set an
entity that is stored anew is first taken out and then put in, if its record has the fragment, so
that nothing of the record before it matters.
-/

namespace FlatGraph

open EntityType (isKeyspace)
open Repository (Entity)
open Store (ofMembers)

/-! ## Effects -/

namespace Change

theorem effects_singleton (k : Bytes) (x : Change) (c : Option Content) :
    effects k [x] c = if x.key = k then x.effect c else .ok c := by
  rw [effects]
  by_cases hx : x.key = k
  · rw [if_pos hx, if_pos hx]
    cases x.effect c <;> rfl
  · rw [if_neg hx, if_neg hx]
    rfl

theorem effect_addMember (key b : Bytes) (members : List Bytes) :
    (addMember key b).effect (ofMembers members) =
      .ok (ofMembers (Sorted.insert b members)) := by
  have hne : Sorted.insert b members ≠ [] := by
    intro h
    have : b ∈ Sorted.insert b members := Sorted.mem_insert.2 (Or.inl rfl)
    rw [h] at this
    cases this
  cases members with
  | nil => rfl
  | cons a as => simp [ofMembers, effect, hne]

theorem effect_removeMember (key b : Bytes) (members : List Bytes) :
    (removeMember key b).effect (ofMembers members) = .ok (ofMembers (members.erase b)) := by
  cases members <;> rfl

theorem insert_insert (b : Bytes) (l : List Bytes) :
    Sorted.insert b (Sorted.insert b l) = Sorted.insert b l := by
  induction l with
  | nil => simp [Sorted.insert]
  | cons c l ih =>
    by_cases hbc : b = c
    · simp [Sorted.insert, hbc]
    · by_cases hlt : b < c
      · simp [Sorted.insert, hbc, hlt]
      · simp [Sorted.insert, hbc, hlt, ih]

/-- The same change at several keys, of a kind that is done once it is made. -/
theorem effects_map {change : Bytes → Change} (hkey : ∀ key, (change key).key = key)
    {c d : Option Content} (hc : ∀ key, (change key).effect c = .ok d)
    (hd : ∀ key, (change key).effect d = .ok d) (k : Bytes) (keys : List Bytes) :
    effects k (keys.map change) c = .ok (if k ∈ keys then d else c) := by
  induction keys generalizing c with
  | nil => rfl
  | cons key keys ih =>
    rw [List.map_cons, effects, hkey]
    by_cases hk : key = k
    · rw [if_pos hk, hc, if_pos (by simp [hk])]
      show effects k _ d = _
      rw [ih hd, ite_self]
    · rw [if_neg hk, ih hc]
      simp [show ¬ k = key from fun he => hk he.symm]

/-- Adding a member to several sets. -/
theorem effects_addMembers (k b : Bytes) (keys members : List Bytes) :
    effects k (keys.map (addMember · b)) (ofMembers members) =
      .ok (ofMembers (if k ∈ keys then Sorted.insert b members else members)) := by
  rw [effects_map (fun _ => rfl) (fun _ => effect_addMember _ b members)
    (fun _ => (effect_addMember _ b _).trans (by rw [insert_insert])), apply_ite ofMembers]

/-- Taking a member out of several sets. -/
theorem effects_unindex (k : Bytes) (id : String) (keys : List Bytes) {members : List Bytes}
    (hm : members.Nodup) :
    effects k (Repository.unindex keys id) (ofMembers members) =
      .ok (ofMembers (if k ∈ keys then members.erase (Utf8.encode id) else members)) := by
  have hagain := List.erase_of_not_mem (hm.not_mem_erase (a := Utf8.encode id))
  rw [Repository.unindex, effects_map (fun _ => rfl) (fun _ => effect_removeMember _ _ members)
    (fun _ => (effect_removeMember _ _ _).trans (by rw [hagain])), apply_ite ofMembers]

/-- Deleting several keys. -/
theorem effects_deletes (k : Bytes) (keys : List Bytes) (c : Option Content) :
    effects k (keys.map delete) c = .ok (if k ∈ keys then none else c) :=
  effects_map (fun _ => rfl) (fun _ => rfl) (fun _ => rfl) k keys

theorem writeField_of_not_mem {field value : Bytes} {l : List (Bytes × Bytes)}
    (h : field ∉ l.map Prod.fst) : Store.writeField field value l = l ++ [(field, value)] := by
  induction l with
  | nil => rfl
  | cons e l ih =>
    rw [List.map_cons, List.mem_cons, not_or] at h
    rw [Store.writeField, if_neg (Ne.symm h.1), ih h.2, List.cons_append]

/-- Fields that are all different are written in their order. -/
theorem foldl_writeField {fields : List (Bytes × Bytes)} (h : (fields.map Prod.fst).Nodup) :
    fields.foldl (fun es f => Store.writeField f.1 f.2 es) [] = fields := by
  induction fields using List.reverseRecOn with
  | nil => rfl
  | append_singleton fields f ih =>
    rw [List.map_append, List.map_singleton, List.nodup_append] at h
    have hf : f.1 ∉ fields.map Prod.fst := fun hm => h.2.2 _ hm _ (List.mem_singleton_self _) rfl
    rw [List.foldl_append, ih h.1]
    exact writeField_of_not_mem hf

theorem nodup_toRaw (es : Entries) : (es.toRaw.map Prod.fst).Nodup := by
  have h : es.toRaw.map Prod.fst = (es.toList.map Prod.fst).map Utf8.encode := by
    simp [Entries.toRaw, Function.comp_def]
  rw [h]
  exact es.distinct.map Utf8.encode_injective

theorem effect_putFields (key : Bytes) (es : Entries) :
    (putFields key es.toRaw).effect none = .ok (some (.hash es.toRaw)) := by
  rw [effect, foldl_writeField (nodup_toRaw es)]

end Change

/-! ## Catalogs after a change -/

namespace Catalog

variable {m : Catalog}

theorem Proper.delete (h : m.Proper) (keyspace id : String) : (m.delete keyspace id).Proper :=
  fun e he => h e (List.mem_filter.1 he).1

theorem Proper.deleteAllOf (h : m.Proper) (keyspace : String) : (m.deleteAllOf keyspace).Proper :=
  fun e he => h e (List.mem_filter.1 he).1

theorem Proper.put (h : m.Proper) {e : Entity} (hk : isKeyspace e.keyspace = true)
    (hr : e.record.keyspace = some e.keyspace) : (m.put e).Proper := by
  intro f hf
  rcases List.mem_append.1 hf with hf | hf
  · exact h.delete _ _ f hf
  · rw [List.mem_singleton.1 hf]
    exact ⟨hk, hr⟩

/-- Entities taken out by keyspace and id. -/
theorem get?_filter (p : String → String → Prop) [∀ ks i, Decidable (p ks i)] (ks i : String) :
    Catalog.get? (m.filter fun e => ¬ p e.keyspace e.id) ks i =
      if p ks i then none else m.get? ks i := by
  rw [get?, List.find?_filter]
  by_cases h : p ks i
  · rw [if_pos h, Option.map_eq_none_iff, List.find?_eq_none]
    intro e _
    simp only [decide_eq_true_eq]
    rintro ⟨hne, rfl, rfl⟩
    exact hne h
  · rw [if_neg h, get?]
    congr 2
    funext e
    rw [Bool.eq_iff_iff, decide_eq_true_eq, decide_eq_true_eq, decide_eq_true_eq]
    constructor
    · exact And.right
    · rintro ⟨rfl, rfl⟩
      exact ⟨h, rfl, rfl⟩

theorem get?_delete (keyspace id ks i : String) :
    (m.delete keyspace id).get? ks i =
      if ks = keyspace ∧ i = id then none else m.get? ks i :=
  get?_filter (fun ks i => ks = keyspace ∧ i = id) ks i

theorem get?_put (e : Entity) (ks i : String) :
    (m.put e).get? ks i =
      if ks = e.keyspace ∧ i = e.id then some e.record else m.get? ks i := by
  have happ : (m.put e).get? ks i = ((m.delete e.keyspace e.id).get? ks i).or
      (Catalog.get? [e] ks i) := by
    rw [get?, get?, get?, put, List.find?_append, Option.map_or]
  rw [happ, get?_delete]
  by_cases h : ks = e.keyspace ∧ i = e.id
  · obtain ⟨rfl, rfl⟩ := h
    simp [get?]
  · have hsingle : Catalog.get? [e] ks i = none := by
      simp only [get?, Option.map_eq_none_iff, List.find?_eq_none, List.mem_singleton,
        forall_eq, decide_eq_true_eq]
      rintro ⟨rfl, rfl⟩
      exact h ⟨rfl, rfl⟩
    rw [if_neg h, if_neg h, hsingle, Option.or_none]

theorem get?_deleteAllOf (keyspace ks i : String) :
    (m.deleteAllOf keyspace).get? ks i = if ks = keyspace then none else m.get? ks i :=
  get?_filter (fun ks _ => ks = keyspace) ks i

theorem mem_delete_iff {keyspace id : String} {e : Entity} :
    e ∈ m.delete keyspace id ↔ e ∈ m ∧ ¬ (e.keyspace = keyspace ∧ e.id = id) := by
  rw [Catalog.delete, List.mem_filter, decide_eq_true_eq]

theorem mem_put_iff {e f : Entity} :
    f ∈ m.put e ↔ (f ∈ m ∧ ¬ (f.keyspace = e.keyspace ∧ f.id = e.id)) ∨ f = e := by
  rw [put, List.mem_append, mem_delete_iff, List.mem_singleton]

theorem mem_deleteAllOf_iff {keyspace : String} {e : Entity} :
    e ∈ m.deleteAllOf keyspace ↔ e ∈ m ∧ ¬ e.keyspace = keyspace := by
  rw [Catalog.deleteAllOf, List.mem_filter, decide_eq_true_eq]

theorem idsOf_delete (keyspace id ks : String) (p : Record → Bool) :
    (m.delete keyspace id).idsOf ks p =
      if ks = keyspace then (m.idsOf ks p).erase (Utf8.encode id) else m.idsOf ks p := by
  refine Sorted.eq_of_mem_iff (pairwise_idsOf _ _ _) ?_ ?_
  · split
    · exact (m.pairwise_idsOf ks p).sublist List.erase_sublist
    · exact m.pairwise_idsOf ks p
  intro b
  rw [mem_idsOf_iff]
  by_cases hk : ks = keyspace
  · rw [if_pos hk, (m.nodup_idsOf ks p).mem_erase_iff, mem_idsOf_iff]
    subst hk
    constructor
    · rintro ⟨e, he, ⟨rfl, hp⟩, rfl⟩
      obtain ⟨he, hne⟩ := mem_delete_iff.1 he
      exact ⟨fun hb => hne ⟨rfl, Utf8.encode_inj.1 hb⟩, e, he, ⟨rfl, hp⟩, rfl⟩
    · rintro ⟨hne, e, he, ⟨rfl, hp⟩, rfl⟩
      exact ⟨e, mem_delete_iff.2 ⟨he, fun h => hne (by rw [h.2])⟩, ⟨rfl, hp⟩, rfl⟩
  · rw [if_neg hk, mem_idsOf_iff]
    constructor
    · rintro ⟨e, he, h⟩
      exact ⟨e, (mem_delete_iff.1 he).1, h⟩
    · rintro ⟨e, he, ⟨rfl, hp⟩, rfl⟩
      exact ⟨e, mem_delete_iff.2 ⟨he, fun h => hk h.1⟩, ⟨rfl, hp⟩, rfl⟩

theorem idsOf_put (e : Entity) (ks : String) (p : Record → Bool) :
    (m.put e).idsOf ks p =
      if ks = e.keyspace ∧ p e.record = true then
        Sorted.insert (Utf8.encode e.id) ((m.delete e.keyspace e.id).idsOf ks p)
      else (m.delete e.keyspace e.id).idsOf ks p := by
  have hmem : ∀ b, b ∈ (m.put e).idsOf ks p ↔
      b ∈ (m.delete e.keyspace e.id).idsOf ks p ∨
        (ks = e.keyspace ∧ p e.record = true) ∧ b = Utf8.encode e.id := by
    intro b
    simp only [mem_idsOf_iff, put, List.mem_append, List.mem_singleton]
    constructor
    · rintro ⟨f, hf | rfl, ⟨rfl, hp⟩, rfl⟩
      · exact Or.inl ⟨f, hf, ⟨rfl, hp⟩, rfl⟩
      · exact Or.inr ⟨⟨rfl, hp⟩, rfl⟩
    · rintro (⟨f, hf, h⟩ | ⟨⟨rfl, hp⟩, rfl⟩)
      · exact ⟨f, Or.inl hf, h⟩
      · exact ⟨e, Or.inr rfl, ⟨rfl, hp⟩, rfl⟩
  have hold := (m.delete e.keyspace e.id).pairwise_idsOf ks p
  split
  · next h =>
    refine Sorted.eq_of_mem_iff (pairwise_idsOf _ _ _) (Sorted.pairwise_insert _ hold) ?_
    intro b
    rw [hmem, Sorted.mem_insert, and_iff_right h, or_comm]
  · next h =>
    refine Sorted.eq_of_mem_iff (pairwise_idsOf _ _ _) hold ?_
    intro b
    rw [hmem, or_iff_left fun hb => h hb.1]

theorem ids_put (e : Entity) (ks : String) :
    (m.put e).ids ks =
      if ks = e.keyspace then Sorted.insert (Utf8.encode e.id) (m.ids ks) else m.ids ks := by
  have hids := idsOf_put (m := m) e ks fun _ => true
  rw [idsOf_delete] at hids
  by_cases hk : ks = e.keyspace
  · rw [if_pos ⟨hk, rfl⟩, if_pos hk] at hids
    rw [if_pos hk, ids, hids, ids]
    have hold := m.pairwise_idsOf ks fun _ => true
    refine Sorted.eq_of_mem_iff (Sorted.pairwise_insert _ (hold.sublist List.erase_sublist))
      (Sorted.pairwise_insert _ hold) ?_
    intro b
    rw [Sorted.mem_insert, Sorted.mem_insert, (m.nodup_idsOf ks _).mem_erase_iff]
    tauto
  · rw [if_neg fun h => hk h.1, if_neg hk] at hids
    rw [if_neg hk, ids, hids, ids]

theorem idsOf_deleteAllOf (keyspace ks : String) (p : Record → Bool) :
    (m.deleteAllOf keyspace).idsOf ks p = if ks = keyspace then [] else m.idsOf ks p := by
  by_cases hk : ks = keyspace
  · rw [if_pos hk, List.eq_nil_iff_forall_not_mem]
    intro b hb
    obtain ⟨e, he, ⟨hks, -⟩, -⟩ := mem_idsOf_iff.1 hb
    exact (mem_deleteAllOf_iff.1 he).2 (hks.trans hk)
  · rw [if_neg hk]
    refine Sorted.eq_of_mem_iff (pairwise_idsOf _ _ _) (pairwise_idsOf _ _ _) ?_
    intro b
    simp only [mem_idsOf_iff, mem_deleteAllOf_iff]
    constructor
    · rintro ⟨e, he, h⟩
      exact ⟨e, he.1, h⟩
    · rintro ⟨e, he, ⟨rfl, hp⟩, rfl⟩
      exact ⟨e, ⟨he, hk⟩, ⟨rfl, hp⟩, rfl⟩

/-- Deleting what is not there changes nothing. -/
theorem content?_delete_of_not_mem {keyspace id : String}
    (h : Utf8.encode id ∉ m.ids keyspace) (a : Address) :
    (m.delete keyspace id).content? a = m.content? a := by
  have herase : ∀ ks p, (m.delete keyspace id).idsOf ks p = m.idsOf ks p := by
    intro ks p
    rw [idsOf_delete]
    by_cases hk : ks = keyspace
    · rw [if_pos hk, List.erase_of_not_mem]
      intro hb
      obtain ⟨e, he, ⟨hks, -⟩, hb⟩ := mem_idsOf_iff.1 hb
      exact h (mem_ids_iff.2 ⟨e, he, hks.trans hk, hb⟩)
    · rw [if_neg hk]
  cases a with
  | entity ks i =>
    rw [content?, content?, get?_delete]
    by_cases hk : ks = keyspace ∧ i = id
    · obtain ⟨rfl, rfl⟩ := hk
      rw [if_pos ⟨rfl, rfl⟩, not_not.1 fun hne => h (mem_ids_of_get? hne)]
    · rw [if_neg hk]
  | members ks => rw [content?, content?, ids, ids, herase]
  | index ks fragment => rw [content?, content?, having, having, herase]

/-! ## Changes of an image -/

/-- Changes of the image of a catalog that make of it at each address what another catalog has
there make the image of the other. -/
theorem changeAll_image {m m' : Catalog} (hm : m.Proper) (hm' : m'.Proper) {xs : List Change}
    (hkeys : ∀ x ∈ xs, ∃ a : Address, a.Proper ∧ a.key = x.key)
    (h : ∀ a : Address, a.Proper → Change.effects a.key xs (m.content? a) = .ok (m'.content? a)) :
    m.image.changeAll xs = (.ok (), m'.image) := by
  have hc : ∀ k, Change.effects k xs (m.image.content? k) = .ok (m'.image.content? k) := by
    intro k
    by_cases ha : ∃ a : Address, a.Proper ∧ a.key = k
    · obtain ⟨a, ha, rfl⟩ := ha
      rw [content?_image hm ha, content?_image hm' ha, h a ha]
    · have hnone : ∀ {m : Catalog}, m.Proper → m.image.content? k = none := by
        intro m hm
        by_contra hne
        obtain ⟨a, hp, hak, -⟩ := exists_address hm hne
        exact ha ⟨a, hp, hak⟩
      rw [hnone hm, hnone hm', Change.effects_of_untouched]
      intro x hx hxk
      obtain ⟨a, hp, hak⟩ := hkeys x hx
      exact ha ⟨a, hp, hak.trans hxk⟩
  obtain ⟨s, hs, ho, hcontent⟩ := Store.changeAll_of_effects m.orderly_image hc
  rw [hs, Store.ext ho m'.orderly_image hcontent]

theorem image_delete_of_not_mem (hm : m.Proper) {keyspace id : String}
    (h : Utf8.encode id ∉ m.ids keyspace) : (m.delete keyspace id).image = m.image := by
  have hm' : (m.delete keyspace id).Proper := fun e he => hm e (mem_delete_iff.1 he).1
  have hnone : m.image.changeAll [] = (.ok (), (m.delete keyspace id).image) := by
    refine changeAll_image hm hm' (fun _ hx => by cases hx) ?_
    intro a _
    exact congrArg Except.ok (content?_delete_of_not_mem h a).symm
  exact (congrArg Prod.snd hnone).symm

/-! ## Clearing -/

/-- The keys of the index sets of a keyspace in the image of a catalog. -/
def indexKeys (m : Catalog) (keyspace : String) : List Bytes :=
  m.image.keys.filter (Utf8.encode (Path.indexStart keyspace)).isPrefixOf

theorem indexKeys_image (m : Catalog) (keyspace : String) :
    Repository.indexKeys m.image keyspace = .ok (m.indexKeys keyspace) := by
  rw [Repository.indexKeys, Store.keysFrom_eq m.orderly_image]
  rfl

/-- What remains at an address when an entity is taken out of the index sets and deleted: its id
stays in the set of the keyspace. -/
def cleared (m : Catalog) (keyspace id : String) : Address → Option Content
  | .members ks => m.content? (.members ks)
  | a => (m.delete keyspace id).content? a

/-- The changes that take an entity out of the index sets and delete it. -/
def clearing (m : Catalog) (keyspace id : String) : List Change :=
  Repository.unindex (m.indexKeys keyspace) id ++ [.delete (Repository.entityKey keyspace id)]

variable {keyspace id : String}

theorem key_of_mem_clearing (hm : m.Proper) (hk : isKeyspace keyspace = true) {x : Change}
    (hx : x ∈ m.clearing keyspace id) : ∃ a : Address, a.Proper ∧ a.key = x.key := by
  rcases List.mem_append.1 hx with hx | hx
  · obtain ⟨key, hkey, rfl⟩ := List.mem_map.1 hx
    obtain ⟨fragment, rfl, -⟩ := (mem_indexKeys_iff hm hk).1 hkey
    exact ⟨.index keyspace fragment, hk, rfl⟩
  · rw [List.mem_singleton.1 hx]
    exact ⟨.entity keyspace id, hk, rfl⟩

/-- A change at one address, as it shows at another. -/
theorem effects_address {a b : Address} (ha : a.Proper) (hb : b.Proper) {x : Change}
    (hx : x.key = b.key) (c : Option Content) :
    Change.effects a.key [x] c = if b = a then x.effect c else .ok c := by
  rw [Change.effects_singleton, hx]
  exact if_congr (Address.key_inj hb ha) rfl rfl

theorem effects_address_of_ne {a b : Address} (ha : a.Proper) (hb : b.Proper) {x : Change}
    (hx : x.key = b.key) (hne : b ≠ a) (c : Option Content) :
    Change.effects a.key [x] c = .ok c := by
  rw [effects_address ha hb hx, if_neg hne]

theorem effects_unindex_of_ne (hm : m.Proper) (hk : isKeyspace keyspace = true) {a : Address}
    (ha : a.Proper) (hne : ∀ fragment, a ≠ .index keyspace fragment) (c : Option Content) :
    Change.effects a.key (Repository.unindex (m.indexKeys keyspace) id) c = .ok c := by
  refine Change.effects_of_untouched ?_ c
  intro x hx hxk
  obtain ⟨key, hkey, rfl⟩ := List.mem_map.1 hx
  obtain ⟨fragment, rfl, -⟩ := (mem_indexKeys_iff hm hk).1 hkey
  have hi : (Address.index keyspace fragment).Proper := hk
  exact hne fragment (Address.key_injective ha hi hxk.symm)

theorem effects_unindex_index (hm : m.Proper) (hk : isKeyspace keyspace = true)
    (fragment : String) :
    Change.effects (Address.index keyspace fragment).key
        (Repository.unindex (m.indexKeys keyspace) id) (m.content? (.index keyspace fragment)) =
      .ok (ofMembers ((m.having keyspace fragment).erase (Utf8.encode id))) := by
  rw [content?, Change.effects_unindex _ _ _ (show (m.having keyspace fragment).Nodup from
    m.nodup_idsOf _ _)]
  split
  · rfl
  · next hkey =>
    have hnil : m.having keyspace fragment = [] := by
      by_contra hne
      exact hkey ((mem_indexKeys_iff hm hk).2 ⟨fragment, rfl, hne⟩)
    rw [hnil]
    rfl

theorem effects_clearing (hm : m.Proper) (hk : isKeyspace keyspace = true) {a : Address}
    (ha : a.Proper) :
    Change.effects a.key (m.clearing keyspace id) (m.content? a) =
      .ok (m.cleared keyspace id a) := by
  have he : (Address.entity keyspace id).Proper := hk
  rw [clearing]
  cases a with
  | entity ks i =>
    rw [Change.effects_append (effects_unindex_of_ne hm hk ha (fun _ h => by cases h) _)]
    show _ = Except.ok (((m.delete keyspace id).get? ks i).map _)
    rw [effects_address ha he rfl, get?_delete]
    by_cases h : ks = keyspace ∧ i = id
    · obtain ⟨rfl, rfl⟩ := h
      rw [if_pos rfl, if_pos ⟨rfl, rfl⟩]
      rfl
    · rw [if_neg h, if_neg fun he => h ⟨(Address.entity.inj he).1.symm,
        (Address.entity.inj he).2.symm⟩]
      rfl
  | members ks =>
    rw [Change.effects_append (effects_unindex_of_ne hm hk ha (fun _ h => by cases h) _)]
    show _ = Except.ok (m.content? (.members ks))
    exact effects_address_of_ne ha he rfl (by simp) _
  | index ks fragment =>
    show _ = Except.ok (ofMembers ((m.delete keyspace id).idsOf ks _))
    rw [idsOf_delete]
    by_cases h : ks = keyspace
    · subst h
      rw [if_pos rfl, Change.effects_append (effects_unindex_index hm hk fragment)]
      exact effects_address_of_ne ha he rfl (by simp) _
    · have hne : ∀ f, Address.index ks fragment ≠ .index keyspace f :=
        fun f hf => h (Address.index.inj hf).1
      rw [if_neg h, Change.effects_append (effects_unindex_of_ne hm hk ha hne _)]
      exact effects_address_of_ne ha he rfl (by simp) _

/-! ## Storing -/

/-- The changes that store an entity that is not there. -/
def adding (e : Entity) : List Change :=
  .putFields (Repository.entityKey e.keyspace e.id) e.record.entries.toRaw ::
    .addMember (Repository.membersKey e.keyspace) (Utf8.encode e.id) ::
      e.record.indexKeys.map fun k => .addMember (Utf8.encode k) (Utf8.encode e.id)

theorem indexKeys_eq {e : Entity} (hr : e.record.keyspace = some e.keyspace) :
    e.record.indexKeys.map Utf8.encode =
      e.record.fragments.map fun f => (Address.index e.keyspace f).key := by
  simp [Record.indexKeys, hr, Address.key, Repository.indexKey, Function.comp_def]

theorem key_of_mem_adding {e : Entity} (hk : isKeyspace e.keyspace = true)
    (hr : e.record.keyspace = some e.keyspace) {x : Change} (hx : x ∈ adding e) :
    ∃ a : Address, a.Proper ∧ a.key = x.key := by
  rcases List.mem_cons.1 hx with rfl | hx
  · exact ⟨.entity e.keyspace e.id, hk, rfl⟩
  rcases List.mem_cons.1 hx with rfl | hx
  · exact ⟨.members e.keyspace, hk, rfl⟩
  obtain ⟨k, hkm, rfl⟩ := List.mem_map.1 hx
  have hkey := List.mem_map_of_mem (f := Utf8.encode) hkm
  rw [indexKeys_eq hr] at hkey
  obtain ⟨fragment, -, hf⟩ := List.mem_map.1 hkey
  exact ⟨.index e.keyspace fragment, hk, hf⟩

/-- The index sets that an entity is put into, by their addresses. -/
theorem addMembers_indexKeys {e : Entity} (hr : e.record.keyspace = some e.keyspace) :
    (e.record.indexKeys.map fun k => Change.addMember (Utf8.encode k) (Utf8.encode e.id)) =
      (e.record.fragments.map fun f => (Address.index e.keyspace f).key).map
        (.addMember · (Utf8.encode e.id)) := by
  rw [← indexKeys_eq hr, List.map_map]
  rfl

/-- Changes of index sets do not show where there is none. -/
theorem effects_addMembers_of_ne {e : Entity} (hk : isKeyspace e.keyspace = true)
    (hr : e.record.keyspace = some e.keyspace) {a : Address} (ha : a.Proper)
    (hne : ∀ f, a ≠ .index e.keyspace f) (c : Option Content) :
    Change.effects a.key
        (e.record.indexKeys.map fun k => .addMember (Utf8.encode k) (Utf8.encode e.id)) c =
      .ok c := by
  rw [addMembers_indexKeys hr]
  refine Change.effects_of_untouched ?_ c
  intro x hx hxk
  simp only [List.map_map, List.mem_map] at hx
  obtain ⟨f, -, rfl⟩ := hx
  exact hne f (Address.key_injective ha (b := .index e.keyspace f) hk hxk.symm)

theorem effects_addMembers_index {e : Entity} (hk : isKeyspace e.keyspace = true)
    (hr : e.record.keyspace = some e.keyspace) {ks fragment : String}
    (ha : (Address.index ks fragment).Proper) (members : List Bytes) :
    Change.effects (Address.index ks fragment).key
        (e.record.indexKeys.map fun k => .addMember (Utf8.encode k) (Utf8.encode e.id))
        (ofMembers members) =
      .ok (ofMembers (if ks = e.keyspace ∧ e.record.fragments.contains fragment = true then
        Sorted.insert (Utf8.encode e.id) members else members)) := by
  have hin : (Address.index ks fragment).key ∈ (e.record.fragments.map fun f =>
      (Address.index e.keyspace f).key) ↔
        ks = e.keyspace ∧ e.record.fragments.contains fragment = true := by
    have hkey : ∀ f, (Address.index e.keyspace f).key = (Address.index ks fragment).key ↔
        e.keyspace = ks ∧ f = fragment := fun f =>
      (Address.key_inj (a := .index e.keyspace f) hk ha).trans (by simp)
    simp only [List.mem_map, hkey, List.contains_iff_mem]
    constructor
    · rintro ⟨f, hf, rfl, rfl⟩
      exact ⟨rfl, hf⟩
    · rintro ⟨rfl, hf⟩
      exact ⟨fragment, hf, rfl, rfl⟩
  rw [addMembers_indexKeys hr, Change.effects_addMembers]
  exact congrArg (Except.ok ∘ ofMembers) (if_congr hin rfl rfl)

/-- Nothing stands under the key of an entity that was cleared, so that its fields are written into
a new hash. -/
theorem effects_putFields_cleared {e : Entity} (hk : isKeyspace e.keyspace = true)
    {ks i : String} (ha : (Address.entity ks i).Proper) :
    Change.effects (Address.entity ks i).key
        [.putFields (Repository.entityKey e.keyspace e.id) e.record.entries.toRaw]
        (m.cleared e.keyspace e.id (.entity ks i)) =
      .ok ((m.put e).content? (.entity ks i)) := by
  show Change.effects _ _ (((m.delete e.keyspace e.id).get? ks i).map _) =
    Except.ok (((m.put e).get? ks i).map _)
  rw [effects_address ha (b := .entity e.keyspace e.id) hk rfl, get?_delete, get?_put]
  by_cases h : ks = e.keyspace ∧ i = e.id
  · obtain ⟨rfl, rfl⟩ := h
    rw [if_pos rfl, if_pos ⟨rfl, rfl⟩, if_pos ⟨rfl, rfl⟩]
    exact Change.effect_putFields _ _
  · rw [if_neg h, if_neg h, if_neg fun he => h ⟨(Address.entity.inj he).1.symm,
      (Address.entity.inj he).2.symm⟩]

theorem effects_addMember_members {e : Entity} (hk : isKeyspace e.keyspace = true) {ks : String}
    (ha : (Address.members ks).Proper) :
    Change.effects (Address.members ks).key
        [.addMember (Repository.membersKey e.keyspace) (Utf8.encode e.id)] (ofMembers (m.ids ks)) =
      .ok (ofMembers ((m.put e).ids ks)) := by
  rw [effects_address ha (b := .members e.keyspace) hk rfl, ids_put]
  by_cases h : ks = e.keyspace
  · subst h
    rw [if_pos rfl, if_pos rfl, Change.effect_addMember]
  · rw [if_neg h, if_neg fun he => h (Address.members.inj he).symm]

/-- At each address at most one of the three parts of storing shows. -/
theorem effects_adding {e : Entity} (hk : isKeyspace e.keyspace = true)
    (hr : e.record.keyspace = some e.keyspace) {a : Address} (ha : a.Proper) :
    Change.effects a.key (adding e) (m.cleared e.keyspace e.id a) =
      .ok ((m.put e).content? a) := by
  have he : (Address.entity e.keyspace e.id).Proper := hk
  have hmem : (Address.members e.keyspace).Proper := hk
  show Change.effects a.key ([_] ++ ([_] ++ _)) _ = _
  cases a with
  | entity ks i =>
    rw [Change.effects_append (effects_putFields_cleared hk ha),
      Change.effects_append (effects_address_of_ne ha hmem rfl (by simp) _)]
    exact effects_addMembers_of_ne hk hr ha (fun _ h => by cases h) _
  | members ks =>
    rw [Change.effects_append (effects_address_of_ne ha he rfl (by simp) _)]
    show Change.effects _ _ (ofMembers (m.ids ks)) = _
    rw [Change.effects_append (effects_addMember_members hk ha)]
    exact effects_addMembers_of_ne hk hr ha (fun _ h => by cases h) _
  | index ks fragment =>
    rw [Change.effects_append (effects_address_of_ne ha he rfl (by simp) _),
      Change.effects_append (effects_address_of_ne ha hmem rfl (by simp) _)]
    show Change.effects _ _ (ofMembers ((m.delete e.keyspace e.id).having ks fragment)) =
      .ok (ofMembers ((m.put e).idsOf ks _))
    rw [effects_addMembers_index hk hr ha, idsOf_put]
    rfl

theorem isMember_image (hm : m.Proper) (hk : isKeyspace keyspace = true) (b : Bytes) :
    m.image.isMember (Repository.membersKey keyspace) b = .ok ((m.ids keyspace).contains b) := by
  rw [Store.isMember, members_image hm hk]
  rfl

theorem replacement_image (hm : m.Proper) {e : Entity} (hk : isKeyspace e.keyspace = true) :
    Repository.replacement m.image e =
      .ok ((if Utf8.encode e.id ∈ m.ids e.keyspace then m.clearing e.keyspace e.id else []) ++
        adding e) := by
  rw [Repository.replacement, isMember_image hm hk, indexKeys_image]
  by_cases h : Utf8.encode e.id ∈ m.ids e.keyspace
  · rw [if_pos h, List.contains_iff_mem.2 h]
    exact congrArg Except.ok (List.append_assoc _ _ _)
  · have hc : (m.ids e.keyspace).contains (Utf8.encode e.id) = false := by simpa using h
    rw [if_neg h, hc]
    rfl

/-- **Storing an entity puts it into the catalog.** -/
theorem save_image (hm : m.Proper) {e : Entity} (hk : isKeyspace e.keyspace = true)
    (hr : e.record.keyspace = some e.keyspace) {repo : Repository} (hs : repo.store = m.image) :
    repo.save e = (.ok (), { repo with store := (m.put e).image }) := by
  have hchanges : m.image.changeAll
      ((if Utf8.encode e.id ∈ m.ids e.keyspace then m.clearing e.keyspace e.id else []) ++
        adding e) = (.ok (), (m.put e).image) := by
    refine changeAll_image hm (hm.put hk hr) ?_ ?_
    · intro x hx
      rcases List.mem_append.1 hx with hx | hx
      · split at hx
        · exact key_of_mem_clearing hm hk hx
        · cases hx
      · exact key_of_mem_adding hk hr hx
    · intro a ha
      rw [Change.effects_append (d := m.cleared e.keyspace e.id a)]
      · exact effects_adding hk hr ha
      · split
        · exact effects_clearing hm hk ha
        · next hid =>
          -- What is not there need not be cleared away.
          have hsame := content?_delete_of_not_mem hid a
          cases a <;> exact congrArg Except.ok (by first | exact hsame.symm | rfl)
  rw [Repository.save, hs, replacement_image hm hk]
  show ((_, _) : Except Error Unit × Repository) = _
  rw [hs, hchanges]
  rfl

/-! ## Deleting -/

theorem effects_removing (hm : m.Proper) (hk : isKeyspace keyspace = true) {a : Address}
    (ha : a.Proper) :
    Change.effects a.key (m.clearing keyspace id ++
        [.removeMember (Repository.membersKey keyspace) (Utf8.encode id)]) (m.content? a) =
      .ok ((m.delete keyspace id).content? a) := by
  have hmem : (Address.members keyspace).Proper := hk
  rw [Change.effects_append (effects_clearing hm hk ha), effects_address ha hmem rfl]
  cases a with
  | entity ks i =>
    rw [if_neg (by simp)]
    rfl
  | index ks fragment =>
    rw [if_neg (by simp)]
    rfl
  | members ks =>
    show _ = Except.ok (ofMembers ((m.delete keyspace id).idsOf ks _))
    rw [idsOf_delete]
    by_cases h : ks = keyspace
    · subst h
      rw [if_pos rfl, if_pos rfl]
      exact Change.effect_removeMember _ _ _
    · rw [if_neg h, if_neg fun he => h (Address.members.inj he).symm]
      rfl

/-- **Deleting an entity takes it out of the catalog.** -/
theorem removal_image (hm : m.Proper) (hk : isKeyspace keyspace = true) (id : String) :
    ∃ changes, Repository.removal m.image id keyspace = .ok changes ∧
      m.image.changeAll changes = (.ok (), (m.delete keyspace id).image) := by
  refine ⟨m.clearing keyspace id ++
    [.removeMember (Repository.membersKey keyspace) (Utf8.encode id)], ?_, ?_⟩
  · rw [Repository.removal, indexKeys_image, clearing, List.append_assoc]
    rfl
  · refine changeAll_image hm (hm.delete _ _) ?_ fun a ha => effects_removing hm hk ha
    intro x hx
    rcases List.mem_append.1 hx with hx | hx
    · exact key_of_mem_clearing hm hk hx
    · rw [List.mem_singleton.1 hx]
      exact ⟨.members keyspace, hk, rfl⟩

/-! ## Deleting all of a keyspace -/

/-- The keys that hold something of a keyspace. -/
def keysOf (m : Catalog) (keyspace : String) : List Bytes :=
  ((m.ids keyspace).map fun id => Repository.entityKey keyspace (Utf8.lossy id)) ++
    [Repository.membersKey keyspace] ++ m.indexKeys keyspace

theorem mem_keysOf (hm : m.Proper) (hk : isKeyspace keyspace = true) {key : Bytes}
    (h : key ∈ m.keysOf keyspace) : ∃ a : Address, a.Proper ∧ a.keyspace = keyspace ∧
      a.key = key := by
  simp only [keysOf, List.mem_append, List.mem_map, List.mem_singleton, or_assoc] at h
  rcases h with ⟨b, -, rfl⟩ | rfl | h
  · exact ⟨.entity keyspace (Utf8.lossy b), hk, rfl, rfl⟩
  · exact ⟨.members keyspace, hk, rfl, rfl⟩
  · obtain ⟨fragment, rfl, -⟩ := (mem_indexKeys_iff hm hk).1 h
    exact ⟨.index keyspace fragment, hk, rfl, rfl⟩

theorem content?_deleteAllOf (a : Address) :
    (m.deleteAllOf keyspace).content? a = if a.keyspace = keyspace then none else m.content? a := by
  cases a with
  | entity ks i =>
    rw [content?, content?, get?_deleteAllOf]
    by_cases h : ks = keyspace
    · simp [h, Address.keyspace]
    · simp [h, Address.keyspace]
  | members ks =>
    rw [content?, content?, ids, idsOf_deleteAllOf]
    by_cases h : ks = keyspace
    · simp [h, Address.keyspace]
    · simp [h, Address.keyspace, ids]
  | index ks fragment =>
    rw [content?, content?, having, idsOf_deleteAllOf]
    by_cases h : ks = keyspace
    · simp [h, Address.keyspace]
    · simp [h, Address.keyspace, having]

theorem key_mem_keysOf (hm : m.Proper) {a : Address} (ha : a.Proper) (hc : m.content? a ≠ none) :
    a.key ∈ m.keysOf a.keyspace := by
  simp only [keysOf, List.mem_append, List.mem_map, List.mem_singleton, or_assoc]
  cases a with
  | entity ks i =>
    have hid : m.get? ks i ≠ none := fun h => hc (by rw [content?, h, Option.map_none])
    exact Or.inl ⟨Utf8.encode i, mem_ids_of_get? hid, by rw [Utf8.lossy_encode]; rfl⟩
  | members ks => exact Or.inr (Or.inl rfl)
  | index ks fragment =>
    refine Or.inr (Or.inr ((mem_indexKeys_iff hm ha).2 ⟨fragment, rfl, ?_⟩))
    intro (hnil : m.having ks fragment = [])
    exact hc (by rw [content?, hnil, Store.ofMembers_nil])

theorem effects_emptying (hm : m.Proper) (hk : isKeyspace keyspace = true) {a : Address}
    (ha : a.Proper) :
    Change.effects a.key ((m.keysOf keyspace).map .delete) (m.content? a) =
      .ok ((m.deleteAllOf keyspace).content? a) := by
  rw [Change.effects_deletes, content?_deleteAllOf]
  by_cases hks : a.keyspace = keyspace
  · rw [if_pos hks]
    subst hks
    split
    · rfl
    · next hkey =>
      by_contra hc
      exact hkey (key_mem_keysOf hm ha fun h => hc (by rw [h]))
  · rw [if_neg hks, if_neg]
    intro hkey
    obtain ⟨b, hb, hbk, hba⟩ := mem_keysOf hm hk hkey
    exact hks (by rw [← Address.key_injective hb ha hba, hbk])

/-- **Deleting all entities of a keyspace takes them out of the catalog.** -/
theorem removalOfAll_image (hm : m.Proper) (hk : isKeyspace keyspace = true) :
    ∃ changes, Repository.removalOfAll m.image keyspace = .ok changes ∧
      m.image.changeAll changes = (.ok (), (m.deleteAllOf keyspace).image) := by
  refine ⟨(m.keysOf keyspace).map .delete, ?_, ?_⟩
  · rw [Repository.removalOfAll, members_image hm hk, indexKeys_image, keysOf]
    simp only [List.map_append, List.map_map]
    rfl
  · refine changeAll_image hm (hm.deleteAllOf _) ?_ fun a ha => effects_emptying hm hk ha
    intro x hx
    obtain ⟨key, hkey, rfl⟩ := List.mem_map.1 hx
    obtain ⟨a, ha, -, hak⟩ := mem_keysOf hm hk hkey
    exact ⟨a, ha, hak⟩

end Catalog

end FlatGraph
