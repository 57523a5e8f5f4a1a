import FlatGraph.Proofs.Convert.Failure
import FlatGraph.Proofs.Record
import FlatGraph.Proofs.Repository.Catalog

/-!
# Loading, on catalogs

**Theorem (`get_image`).** In the image of a catalog, getting an entity ends with an error of the
store only for a stray pointer (`Catalog.Stray`): a value of some record reads as the key of an
index set.

The hash of an entity of the catalog reads back as its record (`Record.ofRaw_toRaw`). For keys that
begin with a keyspace and a colon, this is all that can be found in the store. What comes before
the colon of a pointer may hold a dot, however, as the values of a record may be those of other
properties than they are read for.
-/

namespace FlatGraph

open EntityType (isKeyspace)

namespace Repository

variable {s t : Store} {keyspace id : String}

/-- A hash that was made of entries is read as these. -/
theorem entries?_of_hash (h : s.Orderly) {es : Entries}
    (hc : s.content? (entityKey keyspace id) = some (.hash es.toRaw)) :
    entries? s id keyspace = .ok (if es.toRaw.isEmpty then none else some es) := by
  simp only [entries?, Store.fields, h.whenOpen, hc, stored, Except.mapError, bind, Except.bind,
    pure, Except.pure, Record.ofRaw_toRaw]
  split <;> rfl

theorem entries?_of_none (h : s.Orderly) (hc : s.content? (entityKey keyspace id) = none) :
    entries? s id keyspace = .ok none := by
  simp [entries?, Store.fields, h.whenOpen, hc, stored, Except.mapError, bind, Except.bind, pure,
    Except.pure]

theorem entries?_of_set (h : s.Orderly) {members : List Bytes}
    (hc : s.content? (entityKey keyspace id) = some (.set members)) :
    entries? s id keyspace = .error (.store (.notHash (entityKey keyspace id))) := by
  simp [entries?, Store.fields, h.whenOpen, hc, stored, Except.mapError, bind, Except.bind]

/-- What is stored under the key of an entity is all that its entries depend on. -/
theorem entries?_congr (hs : s.Orderly) (ht : t.Orderly)
    (h : s.content? (entityKey keyspace id) = t.content? (entityKey keyspace id)) :
    entries? s id keyspace = entries? t id keyspace := by
  simp only [entries?, Store.fields, hs.whenOpen, ht.whenOpen, h]

end Repository

namespace Catalog

variable {m : Catalog}

/-- An error of the store that a stray pointer leads to: some record holds the key of an index set
as a value. -/
def Stray (m : Catalog) (cause : StoreError) : Prop :=
  ∃ keyspace fragment, m.having keyspace fragment ≠ [] ∧
    cause = .notHash (Repository.indexKey keyspace fragment) ∧
      ∃ e ∈ m, ∃ x ∈ e.record.entries.toList,
        Utf8.decode x.2 = .ok (Path.indexKey keyspace fragment)

/-- What a pointer with a colon finds: the record of an entity, or nothing, or an index set in the
place of an entity. -/
theorem entries?_image (hm : m.Proper) (id keyspace : String) :
    (∃ es?, Repository.entries? m.image id keyspace = .ok es? ∧
        ∀ es, es? = some es → ∃ e ∈ m, e.record.entries = es) ∨
      ∃ ks fragment, m.having ks fragment ≠ [] ∧
        Path.entityKey keyspace id = Path.indexKey ks fragment ∧
        Repository.entries? m.image id keyspace =
          .error (.store (.notHash (Repository.indexKey ks fragment))) := by
  cases hc : m.image.content? (Repository.entityKey keyspace id) with
  | none =>
    exact Or.inl ⟨none, Repository.entries?_of_none m.orderly_image hc, fun _ h => by cases h⟩
  | some c =>
    obtain ⟨a, ha, hkey, hac⟩ := (lookup_image_iff hm).1 hc
    cases a with
    | entity ks i =>
      obtain ⟨record, hr, rfl⟩ := Option.map_eq_some_iff.1 hac
      obtain ⟨e, he, -, -, rfl⟩ := get?_eq_some hr
      refine Or.inl ⟨_, Repository.entries?_of_hash m.orderly_image hc, fun es h => ?_⟩
      split at h <;> cases h
      exact ⟨e, he, rfl⟩
    | members ks =>
      -- A keyspace holds no colon.
      have htext : ks = Path.entityKey keyspace id := Utf8.encode_inj.1 hkey
      obtain ⟨-, -, hcolon⟩ := EntityType.isKeyspace_iff.1 (show isKeyspace ks = true from ha)
      rw [htext] at hcolon
      simp [Path.entityKey] at hcolon
    | index ks fragment =>
      have hne : m.having ks fragment ≠ [] := by
        intro hnil
        rw [content?, hnil] at hac
        cases hac
      refine Or.inr ⟨ks, fragment, hne, (Utf8.encode_inj.1 hkey).symm, ?_⟩
      rw [content?, Store.ofMembers, if_neg hne] at hac
      cases hac
      rw [show Repository.indexKey ks fragment = Repository.entityKey keyspace id from hkey]
      exact Repository.entries?_of_set m.orderly_image hc

/-- For a keyspace, a key with a colon is that of no index set. -/
theorem entries?_of_isKeyspace (hm : m.Proper) {keyspace : String}
    (hk : isKeyspace keyspace = true) (id : String) :
    ∃ es?, Repository.entries? m.image id keyspace = .ok es? ∧
      ∀ es, es? = some es → ∃ e ∈ m, e.record.entries = es := by
  rcases entries?_image hm id keyspace with h | ⟨ks, fragment, hne, htext, -⟩
  · exact h
  · obtain ⟨b, hb⟩ := List.exists_mem_of_ne_nil _ hne
    obtain ⟨e, he, ⟨rfl, -⟩, -⟩ := mem_having_iff.1 hb
    have ha : (Address.entity keyspace id).Proper := hk
    have hb : (Address.index e.keyspace fragment).Proper := (hm e he).1
    cases Address.key_injective ha hb (congrArg Utf8.encode htext)

theorem resolver_image (hm : m.Proper) {r : Registry} {reference : Reference} {cause : StoreError}
    (h : Repository.resolver r m.image reference = .error (.store cause)) :
    ∃ ks fragment, m.having ks fragment ≠ [] ∧
      Path.entityKey reference.keyspace reference.id = Path.indexKey ks fragment ∧
        cause = .notHash (Repository.indexKey ks fragment) := by
  unfold Repository.resolver at h
  rcases entries?_image hm reference.id reference.keyspace with ⟨es?, hes, -⟩ |
    ⟨ks, fragment, hne, htext, hes⟩
  · rw [hes] at h
    cases es? with
    | none => cases h
    | some es =>
      -- The entities that others refer to are read without resolving references.
      obtain ⟨_, _, _, _, _, _, _, _, hn⟩ :=
        Registry.read_failsWith r .nothing reference.type es _ h
        cause rfl
      cases hn
  · rw [hes] at h
    cases h
    exact ⟨ks, fragment, hne, htext, rfl⟩

variable {repo : Repository} {keyspace : String}

theorem load_image (hm : m.Proper) {type : String} {e : Repository.Entity} (he : e ∈ m)
    {cause : StoreError}
    (h : Repository.load repo.registry m.image type e.record.entries = .error (.store cause)) :
    m.Stray cause := by
  obtain ⟨x, hx, text, ks, i, t, ht, hs, hresolve⟩ :=
    Registry.read_failsWith repo.registry (Repository.resolver repo.registry m.image) type
      e.record.entries _ h cause rfl
  obtain ⟨ks', fragment, hne, htext, rfl⟩ := resolver_image hm hresolve
  refine ⟨ks', fragment, hne, rfl, e, he, x, hx, ?_⟩
  rw [ht, (Path.splitPointer?_eq_some_iff.1 hs).1, ← htext]

/-- **Getting an entity ends with an error of the store only for a stray pointer.** -/
theorem get_image (hm : m.Proper) (hk : isKeyspace keyspace = true) (hs : repo.store = m.image)
    {id type : String} {cause : StoreError}
    (h : repo.get id keyspace type = .error (.store cause)) : m.Stray cause := by
  obtain ⟨es?, hes, hin⟩ := entries?_of_isKeyspace hm hk id
  unfold Repository.get at h
  rw [hs, hes] at h
  cases es? with
  | none => cases h
  | some es =>
    obtain ⟨e, he, rfl⟩ := hin es rfl
    exact load_image hm he h

theorem getEach_image (hm : m.Proper) (hk : isKeyspace keyspace = true)
    (hs : repo.store = m.image) {type : String} {ids : List Bytes} {cause : StoreError}
    (h : repo.getEach keyspace type ids = .error (.store cause)) : m.Stray cause := by
  rcases Outcome.bind_eq_error_iff.1 h with h | ⟨_, -, h⟩
  · obtain ⟨b, -, hb⟩ := Outcome.exists_of_mapM_eq_error h
    exact get_image hm hk hs hb
  · cases h

theorem members_image (hm : m.Proper) (hk : isKeyspace keyspace = true) :
    m.image.members (Repository.membersKey keyspace) = .ok (m.ids keyspace) := by
  have ha : (Address.members keyspace).Proper := hk
  exact Store.members_of_content? m.orderly_image (content?_image hm ha)

theorem getAllOf_image (hm : m.Proper) (hk : isKeyspace keyspace = true)
    (hs : repo.store = m.image) {type : String} {cause : StoreError}
    (h : repo.getAllOf keyspace type = .error (.store cause)) : m.Stray cause := by
  unfold Repository.getAllOf at h
  rw [hs, members_image hm hk] at h
  exact getEach_image hm hk hs h

theorem having_image (hm : m.Proper) (hk : isKeyspace keyspace = true)
    (hs : repo.store = m.image) (fragment : String) :
    repo.having keyspace fragment = .ok (m.having keyspace fragment) := by
  have ha : (Address.index keyspace fragment).Proper := hk
  have h := Store.members_of_content? m.orderly_image (content?_image hm ha)
  rw [Repository.having, hs]
  exact congrArg Repository.stored h

theorem own_of_fragments {q : Query} {e : Error} (h : q.fragments = .error e) : e.Own := by
  have hf : ∀ c, Query.fragment c = .error e → e.Own := by
    intro c hc
    unfold Query.fragment at hc
    split at hc
    · split at hc <;> cases hc
      exact fun _ h => by cases h
    · cases hc
      exact fun _ h => by cases h
  rcases Outcome.bind_eq_error_iff.1 h with h | ⟨_, -, h⟩
  · obtain ⟨c, -, hc⟩ := Outcome.exists_of_mapM_eq_error h
    exact hf c hc
  · rcases Outcome.bind_eq_error_iff.1 h with h | ⟨_, -, h⟩
    · obtain ⟨c, -, hc⟩ := Outcome.exists_of_mapM_eq_error h
      exact hf c hc
    · cases h

theorem select_image (hm : m.Proper) (hk : isKeyspace keyspace = true)
    (hs : repo.store = m.image) {q : Query} {e : Error}
    (h : repo.select keyspace q = .error e) : e.Own := by
  have hnone : ∀ fs : List String, ¬ fs.mapM (repo.having keyspace) = .error e := by
    intro fs hfs
    obtain ⟨f, -, hf⟩ := Outcome.exists_of_mapM_eq_error hfs
    rw [having_image hm hk hs] at hf
    cases hf
  rcases Outcome.bind_eq_error_iff.1 h with h | ⟨fs, -, h⟩
  · exact own_of_fragments h
  · rcases Outcome.bind_eq_error_iff.1 h with h | ⟨_, -, h⟩
    · exact absurd h (hnone _)
    · rcases Outcome.bind_eq_error_iff.1 h with h | ⟨_, -, h⟩
      · exact absurd h (hnone _)
      · cases h

theorem find_image (hm : m.Proper) (hk : isKeyspace keyspace = true) (hs : repo.store = m.image)
    {type : String} {q : Query} {cause : StoreError}
    (h : repo.find keyspace type q = .error (.store cause)) : m.Stray cause := by
  unfold Repository.find at h
  split at h
  · exact getAllOf_image hm hk hs h
  · rcases Outcome.bind_eq_error_iff.1 h with h | ⟨ids, -, h⟩
    · exact absurd rfl (select_image hm hk hs h cause)
    · exact getEach_image hm hk hs h

end Catalog

end FlatGraph
