import FlatGraph.Proofs.Convert.Located
import FlatGraph.Proofs.Repository.Run

/-!
# Deleting entities

**Theorem (`delete_yields`).** After any run of requests, deleting an entity yields what getting it
does, but for its references to itself: the entity is read when it is gone from the store, so that
they find nothing (`Repository.getWithoutSelf`). An entity that does not read even so is deleted all
the same. Then there is no trace of its id in the keyspace.

A read without end (`Error.Unending`) is no error to recover from, and nothing is said of what a
deletion yields then. It takes a type with a property of an empty name (`Catalog.load_ends`).

The deletion empties the hash of the entity and takes its id out of sets. For a reference to another
entity nothing is different (`resolver_delete`): a set is never an entity, and where a pointer leads
to a set, the read fails before the deletion. As a read depends on the references that it resolves
(`Registry.read_parallel`), the one after the deletion is the one before it, with nothing found
for the references to the entity itself.
-/

namespace FlatGraph

open EntityType (isKeyspace)

/-- The key of the entity that is referred to. -/
def Reference.key (reference : Reference) : String :=
  Path.entityKey reference.keyspace reference.id

/-- A resolver that does not find one entity. -/
def Resolver.without (resolve : Resolver) (keyspace id : String) : Resolver := fun reference =>
  if reference.key = Path.entityKey keyspace id then .ok none else resolve reference

namespace Resolver

variable {resolve : Resolver} {keyspace id : String} {reference : Reference}

theorem without_of_eq (h : reference.key = Path.entityKey keyspace id) :
    resolve.without keyspace id reference = .ok none := if_pos h

theorem without_of_ne (h : reference.key ≠ Path.entityKey keyspace id) :
    resolve.without keyspace id reference = resolve reference := if_neg h

end Resolver

/-! ## Getting an entity without its references to itself -/

namespace Repository

variable {repo : Repository} {id keyspace type : String}

/-- The entity with an id, where nothing is found for references to itself. -/
def getWithoutSelf (repo : Repository) (id keyspace type : String) :
    Except Error (Option Object) := do
  match ← entries? repo.store id keyspace with
  | some es =>
    (repo.registry.read ((resolver repo.registry repo.store).without keyspace id) type es).outcome
  | none => pure none

/-- The references that are resolved to get an entity. -/
def followed (repo : Repository) (id keyspace type : String) : List Reference :=
  match entries? repo.store id keyspace with
  | .ok (some es) => (repo.registry.read (resolver repo.registry repo.store) type es).trace
  | _ => []

/-- To get an entity with and without its references to itself are readings that go side by side. -/
theorem exists_parallel (repo : Repository) (id keyspace type : String) :
    ∃ x x' : Reading (Option Object),
      Read.Parallel (resolver repo.registry repo.store)
        ((resolver repo.registry repo.store).without keyspace id) x x' ∧
      x.outcome = repo.get id keyspace type ∧ x.trace = repo.followed id keyspace type ∧
      x'.outcome = repo.getWithoutSelf id keyspace type := by
  unfold get followed getWithoutSelf
  rcases entries? repo.store id keyspace with e | (_ | es)
  · exact ⟨liftM (Except.error e), liftM (Except.error e), .of_untraced rfl, rfl, rfl, rfl⟩
  · exact ⟨pure none, pure none, .of_untraced rfl, rfl, rfl, rfl⟩
  · exact ⟨_, _, repo.registry.read_parallel _ _ type es, rfl, rfl, rfl⟩

/-- Without references to itself, an entity is got as ever. -/
theorem getWithoutSelf_eq (h : ∀ reference ∈ repo.followed id keyspace type,
    reference.key ≠ Path.entityKey keyspace id) :
    repo.getWithoutSelf id keyspace type = repo.get id keyspace type := by
  obtain ⟨x, x', hparallel, hget, htrace, hwithout⟩ := repo.exists_parallel id keyspace type
  rw [← htrace] at h
  rw [← hget, ← hwithout,
    hparallel.same fun reference hr => Resolver.without_of_ne (h reference hr)]

/-- Where an entity can be got, it can be without its references to itself. -/
theorem exists_getWithoutSelf {o? : Option Object} (h : repo.get id keyspace type = .ok o?) :
    ∃ o'?, repo.getWithoutSelf id keyspace type = .ok o'? := by
  obtain ⟨x, x', hparallel, hget, -, hwithout⟩ := repo.exists_parallel id keyspace type
  rw [← hwithout]
  refine hparallel.succeeds (fun reference _ => ?_) o? (hget.trans h)
  by_cases hself : reference.key = Path.entityKey keyspace id
  · exact .inr ⟨none, Resolver.without_of_eq hself⟩
  · exact .inl (Resolver.without_of_ne hself)

/-- Where an entity cannot be got, it cannot be without its references to itself either, if it is
not one of them that fails. -/
theorem getWithoutSelf_of_error {e : Error} (h : repo.get id keyspace type = .error e) :
    repo.getWithoutSelf id keyspace type = .error e ∨
      ∃ reference ∈ repo.followed id keyspace type,
        reference.key = Path.entityKey keyspace id ∧
          resolver repo.registry repo.store reference = .error e := by
  obtain ⟨x, x', hparallel, hget, htrace, hwithout⟩ := repo.exists_parallel id keyspace type
  rw [← hget] at h
  rw [← hwithout, ← htrace, or_iff_not_imp_right]
  intro hself
  refine hparallel.fails (fun reference hr => ?_) e h
  by_cases hkey : reference.key = Path.entityKey keyspace id
  · cases ho : resolver repo.registry repo.store reference with
    | ok o? => exact .inr ⟨o?, none, rfl, Resolver.without_of_eq hkey⟩
    | error e' =>
      cases (hparallel.surfaces reference hr e' ho).symm.trans h
      exact absurd ⟨reference, hr, hkey, ho⟩ hself
  · exact .inl (Resolver.without_of_ne hkey)

end Repository

/-! ## Reading after a deletion -/

namespace Catalog

variable {m : Catalog} {keyspace id : String}

/-- A deletion takes one entity away, and changes nothing else but sets. -/
theorem content?_delete (m : Catalog) (keyspace id : String) (a : Address) :
    (m.delete keyspace id).content? a = m.content? a ∨ a = .entity keyspace id ∨
      ∃ members, m.content? a = some (.set members) := by
  have hset : ∀ ks p, Store.ofMembers ((m.delete keyspace id).idsOf ks p) =
      Store.ofMembers (m.idsOf ks p) ∨
        ∃ members, Store.ofMembers (m.idsOf ks p) = some (.set members) := fun ks p => by
    by_cases hnil : m.idsOf ks p = []
    · rw [idsOf_delete, hnil, List.erase_nil, ite_self]
      exact .inl rfl
    · exact .inr ⟨_, if_neg hnil⟩
  cases a with
  | entity ks i =>
    by_cases he : ks = keyspace ∧ i = id
    · exact .inr (.inl (by rw [he.1, he.2]))
    · refine .inl ?_
      rw [content?, content?, get?_delete, if_neg he]
  | members ks => exact (hset ks _).imp_right .inr
  | index ks fragment => exact (hset ks _).imp_right .inr

theorem entries?_delete (hm : m.Proper) {ks i : String}
    (h : Path.entityKey ks i ≠ Path.entityKey keyspace id) :
    Repository.entries? (m.delete keyspace id).image i ks = Repository.entries? m.image i ks ∨
      ∃ cause, Repository.entries? m.image i ks = .error (.store cause) := by
  have ho := m.orderly_image
  have ho' := (m.delete keyspace id).orderly_image
  by_cases ha : ∃ a : Address, a.Proper ∧ a.key = Repository.entityKey ks i
  · obtain ⟨a, ha, hkey⟩ := ha
    rcases m.content?_delete keyspace id a with hsame | rfl | ⟨members, hset⟩
    · rw [← content?_image hm ha, ← content?_image (hm.delete _ _) ha, hkey] at hsame
      exact .inl (Repository.entries?_congr ho' ho hsame)
    · exact absurd (Utf8.encode_inj.1 hkey).symm h
    · rw [← content?_image hm ha, hkey] at hset
      exact .inr ⟨_, Repository.entries?_of_set ho hset⟩
  · have hnone : ∀ {m : Catalog}, m.Proper →
        m.image.content? (Repository.entityKey ks i) = none := fun {m} hm => by
      by_contra hne
      obtain ⟨a, hp, hkey, -⟩ := exists_address hm hne
      exact ha ⟨a, hp, hkey⟩
    exact .inl (Repository.entries?_congr ho' ho ((hnone (hm.delete _ _)).trans (hnone hm).symm))

/-- A deletion takes the hash of the entity away. -/
theorem content?_image_delete (hm : m.Proper) (hk : isKeyspace keyspace = true) :
    (m.delete keyspace id).image.content? (Repository.entityKey keyspace id) = none := by
  have ha : (Address.entity keyspace id).Proper := hk
  show (m.delete keyspace id).image.content? (Address.entity keyspace id).key = none
  rw [content?_image (hm.delete _ _) ha, content?, get?_delete, if_pos ⟨rfl, rfl⟩]
  rfl

/-- After a deletion, references to the entity find nothing, and others what they found before. -/
theorem resolver_delete (hm : m.Proper) (hk : isKeyspace keyspace = true) (r : Registry)
    (reference : Reference) :
    Repository.resolver r (m.delete keyspace id).image reference =
        (Repository.resolver r m.image).without keyspace id reference ∨
      ∃ cause, (Repository.resolver r m.image).without keyspace id reference =
        .error (.store cause) := by
  by_cases hself : reference.key = Path.entityKey keyspace id
  · have hgone : (m.delete keyspace id).image.content?
        (Repository.entityKey reference.keyspace reference.id) = none := by
      rw [show Repository.entityKey reference.keyspace reference.id =
        Repository.entityKey keyspace id from congrArg Utf8.encode hself]
      exact content?_image_delete hm hk
    rw [Resolver.without_of_eq hself, Repository.resolver,
      Repository.entries?_of_none (m.delete keyspace id).orderly_image hgone]
    exact .inl rfl
  · rw [Resolver.without_of_ne hself, Repository.resolver, Repository.resolver]
    rcases entries?_delete hm hself with hsame | ⟨cause, hcause⟩
    · rw [hsame]
      exact .inl rfl
    · rw [hcause]
      exact .inr ⟨cause, rfl⟩

/-- A read after a deletion finds what one before it does without the entity, if the store does not
refuse that. -/
theorem read_delete (hm : m.Proper) (hk : isKeyspace keyspace = true) (r : Registry)
    (type : String) (es : Entries)
    (h : ∀ cause, (r.read ((Repository.resolver r m.image).without keyspace id) type es).outcome ≠
      .error (.store cause)) :
    r.read (Repository.resolver r (m.delete keyspace id).image) type es =
      r.read ((Repository.resolver r m.image).without keyspace id) type es := by
  have hparallel := r.read_parallel ((Repository.resolver r m.image).without keyspace id)
    (Repository.resolver r (m.delete keyspace id).image) type es
  refine hparallel.same fun reference hr => ?_
  rcases resolver_delete hm hk r reference with hsame | ⟨cause, hcause⟩
  · exact hsame
  · exact absurd (hparallel.surfaces reference hr _ hcause) (h cause)

/-- Where no property has an empty name, reading an entity ends, and so does resolving a
reference. -/
theorem resolver_ends (hm : m.Proper) {r : Registry}
    (hr : ∀ name t, r.find? name = some t → ∀ p ∈ t.properties, p.name ≠ "")
    (reference : Reference) (e : Error)
    (h : Repository.resolver r m.image reference = .error e) : ¬ e.Unending := by
  unfold Repository.resolver at h
  rcases entries?_image hm reference.id reference.keyspace with
    ⟨es?, hes, -⟩ | ⟨ks, fragment, -, -, hes⟩
  · rw [hes] at h
    cases es? with
    | none => cases h
    | some es => exact Registry.read_ends hr (fun _ _ h => by cases h) reference.type es e h
  · rw [hes] at h
    cases h
    rintro ⟨_, _, ⟨⟩⟩

theorem load_ends (hm : m.Proper) {r : Registry}
    (hr : ∀ name t, r.find? name = some t → ∀ p ∈ t.properties, p.name ≠ "") (type : String)
    (es : Entries) (e : Error) (h : Repository.load r m.image type es = .error e) :
    ¬ e.Unending := Registry.read_ends hr (resolver_ends hm hr) type es e h

theorem not_mem_idsOf_delete (p : Record → Bool) :
    Utf8.encode id ∉ (m.delete keyspace id).idsOf keyspace p := by
  rw [idsOf_delete, if_pos rfl]
  exact (m.nodup_idsOf keyspace p).not_mem_erase

/-- A deletion leaves no trace of the id. -/
theorem image_delete (hm : m.Proper) (hk : isKeyspace keyspace = true) :
    (m.delete keyspace id).image.content? (Repository.entityKey keyspace id) = none ∧
      (m.delete keyspace id).image.isMember (Repository.membersKey keyspace) (Utf8.encode id) =
        .ok false ∧
      ∀ fragment, (m.delete keyspace id).image.isMember (Repository.indexKey keyspace fragment)
        (Utf8.encode id) = .ok false := by
  have hm' := hm.delete keyspace id
  have hset : ∀ (a : Address) (p : Record → Bool), a.Proper →
      (m.delete keyspace id).content? a =
        Store.ofMembers ((m.delete keyspace id).idsOf keyspace p) →
      (m.delete keyspace id).image.isMember a.key (Utf8.encode id) = .ok false := by
    intro a p ha hc
    rw [← content?_image hm' ha] at hc
    rw [Store.isMember, Store.members_of_content? (orderly_image _) hc]
    exact congrArg Except.ok (by simpa using not_mem_idsOf_delete p)
  exact ⟨content?_image_delete hm hk, hset (.members keyspace) _ hk rfl,
    fun fragment => hset (.index keyspace fragment) _ hk rfl⟩

end Catalog

theorem Stands.getWithoutSelf_ends {repo : Repository} {m : Catalog} (h : Stands repo m)
    (hr : ∀ name t, repo.registry.find? name = some t → ∀ p ∈ t.properties, p.name ≠ "")
    {keyspace : String} (hk : isKeyspace keyspace = true) {id type : String} {e : Error}
    (he : repo.getWithoutSelf id keyspace type = .error e) : ¬ e.Unending := by
  obtain ⟨es?, hes, -⟩ := Catalog.entries?_of_isKeyspace h.proper hk id
  unfold Repository.getWithoutSelf at he
  rw [h.store, hes] at he
  cases es? with
  | none => cases he
  | some es =>
    refine Registry.read_ends hr (fun reference e' he' => ?_) type es e he
    by_cases hself : reference.key = Path.entityKey keyspace id
    · rw [Resolver.without_of_eq hself] at he'
      cases he'
    · rw [Resolver.without_of_ne hself] at he'
      exact Catalog.resolver_ends h.proper hr reference e' he'

/-- Deleting an entity yields it as it is got without its references to itself, or nothing if it
does not read then. -/
theorem Stands.delete_spec {repo : Repository} {m : Catalog} (h : Stands repo m)
    {keyspace : String} (hk : isKeyspace keyspace = true) (id type : String) :
    ∃ deleted?, repo.delete id keyspace type =
        (.ok deleted?, { repo with store := (m.delete keyspace id).image }) ∧
      ((∀ cause, repo.getWithoutSelf id keyspace type ≠ .error (.store cause)) →
        deleted? = (repo.getWithoutSelf id keyspace type).toOption.join) := by
  obtain ⟨es?, hes, hdelete⟩ := h.delete_eq hk id type
  refine ⟨_, hdelete, fun hresult => ?_⟩
  unfold Repository.getWithoutSelf at hresult ⊢
  rw [hes] at hresult ⊢
  cases es? with
  | none => rfl
  | some es =>
    rw [h.store] at hresult ⊢
    have hread := Catalog.read_delete h.proper hk repo.registry type es hresult
    exact congrArg (fun x : Reading (Option Object) => x.outcome.toOption.join) hread

/-- **After any run, deleting an entity yields what getting it does, but for its references to
itself**, and leaves no trace of its id in the keyspace. An entity that does not read is deleted all
the same. This is said of reads that end; where no property has an empty name, they all do. -/
theorem delete_yields {repo now : Repository} {qs : List Request} (hb : repo.registry.Built)
    (hs : repo.store = {}) (hq : ∀ q ∈ qs, q.Proper) (hrun : (repo.run [] qs).1 = now)
    {keyspace : String} (hk : isKeyspace keyspace = true) (id type : String) :
    ∃ yielded after, now.delete id keyspace type = (yielded, after) ∧
      (∀ o?, now.getWithoutSelf id keyspace type = .ok o? → yielded = .ok o?) ∧
      (∀ e, e.Own → ¬ e.Unending → now.getWithoutSelf id keyspace type = .error e →
        yielded = .ok none) ∧
      ((∀ name t, now.registry.find? name = some t → ∀ p ∈ t.properties, p.name ≠ "") →
        (∀ e, now.getWithoutSelf id keyspace type = .error e → ¬ e.Unending) ∧
        (∀ es e, Repository.load now.registry after.store type es = .error e → ¬ e.Unending) ∧
        ∃ o?, yielded = .ok o?) ∧
      (∀ o?, now.get id keyspace type = .ok o? →
        ∃ o'?, now.getWithoutSelf id keyspace type = .ok o'?) ∧
      (∀ e, now.get id keyspace type = .error e →
        now.getWithoutSelf id keyspace type = .error e ∨
          ∃ reference ∈ now.followed id keyspace type,
            reference.key = Path.entityKey keyspace id ∧
              Repository.resolver now.registry now.store reference = .error e) ∧
      ((∀ reference ∈ now.followed id keyspace type,
          reference.key ≠ Path.entityKey keyspace id) →
        now.getWithoutSelf id keyspace type = now.get id keyspace type) ∧
      after.store.content? (Repository.entityKey keyspace id) = none ∧
      after.store.isMember (Repository.membersKey keyspace) (Utf8.encode id) = .ok false ∧
      ∀ fragment, after.store.isMember (Repository.indexKey keyspace fragment) (Utf8.encode id) =
        .ok false := by
  have hstands : Stands (repo.run [] qs).1 (repo.run [] qs).2 :=
    (show Stands repo [] from ⟨hb, fun _ he => (by cases he), hs⟩).run hq
  rw [hrun] at hstands
  obtain ⟨deleted?, hdelete, hyields⟩ := hstands.delete_spec hk id type
  refine ⟨.ok deleted?, _, hdelete, fun o? ho => ?_, fun e hown _ he => ?_, fun hr => ?_,
    fun _ => Repository.exists_getWithoutSelf, fun _ => Repository.getWithoutSelf_of_error,
    Repository.getWithoutSelf_eq, Catalog.image_delete hstands.proper hk⟩
  · rw [ho] at hyields
    exact congrArg Except.ok (hyields fun _ h => by cases h)
  · rw [he] at hyields
    exact congrArg Except.ok (hyields fun cause h => hown cause (Except.error.inj h))
  · exact ⟨fun e => hstands.getWithoutSelf_ends hr hk,
      Catalog.load_ends (hstands.proper.delete _ _) hr type, deleted?, rfl⟩

/-! ## A note that refers to itself -/

namespace Notebook

/-- A note that refers to itself. -/
def selfish : Object :=
  ⟨"N", [("id", .text "1"), ("seeAlso", .list [.object "N" [("id", .text "1")]])]⟩

/-- The same note without the reference. -/
def plain : Object := ⟨"N", [("id", .text "1")]⟩

theorem proper_selfish : ∀ q ∈ [Request.put selfish], q.Proper := by
  intro q hq keyspace hk
  rw [List.mem_singleton.1 hq] at hk
  cases hk

theorem get_selfish :
    (empty.run [] [.put selfish]).1.get "1" "N" "N" = .ok (some selfish) := by decide +kernel

theorem getWithoutSelf_selfish :
    (empty.run [] [.put selfish]).1.getWithoutSelf "1" "N" "N" = .ok (some plain) := by
      decide +kernel

end Notebook

open Notebook in
/-- The note that refers to itself is yielded without this reference. -/
theorem delete_yields_plain :
    ∃ after, (empty.run [] [.put selfish]).1.delete "1" "N" "N" = (.ok (some plain), after) ∧
      after.store.content? (Repository.entityKey "N" "1") = none := by
  obtain ⟨yielded, after, hdelete, hyields, -, -, -, -, -, hgone, -⟩ :=
    delete_yields built rfl proper_selfish rfl (show isKeyspace "N" = true by decide) "1" "N"
  rw [hyields _ getWithoutSelf_selfish] at hdelete
  exact ⟨after, hdelete, hgone⟩

open Notebook in
/-- What is deleted may not be what was got before. -/
theorem not_delete_eq_get :
    ¬ ∀ repo : Repository, repo.registry.Built → repo.store = {} →
      ∀ qs : List Request, (∀ q ∈ qs, q.Proper) →
        ∀ keyspace, isKeyspace keyspace = true → ∀ id type o?,
          (repo.run [] qs).1.get id keyspace type = .ok o? →
            ((repo.run [] qs).1.delete id keyspace type).1 = .ok o? := by
  intro h
  have hdelete : ((empty.run [] [.put selfish]).1.delete "1" "N" "N").1 = .ok (some plain) := by
    decide +kernel
  rw [h empty built rfl [.put selfish] proper_selfish "N" (by decide) "1" "N" _ get_selfish]
    at hdelete
  simp [selfish, plain] at hdelete

end FlatGraph
