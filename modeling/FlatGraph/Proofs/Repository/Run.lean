import FlatGraph.Proofs.Convert.Index
import FlatGraph.Proofs.Repository.Refine

/-!
# Runs of requests

**Theorem (`store_eq_image`).** Whatever is asked of a repository that starts empty, its store is
the image of the catalog of the entities that were stored and not deleted since. A request that
fails leaves the store as it was. An error of the store comes only of loading entities, for a stray
pointer.

The invariant of a run is `Stands`: the store is the image of the catalog. Each request preserves it
(`Stands.serve`), and what goes wrong in one is looked at where the invariant holds
(`Stands.error`).

An object is prepared before the store is touched. How that may end is said once (`preparing`);
what it leaves alone (`follows_prepare`), what it yields (`exists_written_of_prepare`) and what
goes wrong in it (`own_of_prepare`) follow by cases.
-/

namespace FlatGraph

open EntityType (isKeyspace)
open Repository (Entity)

/-! ## Requests -/

/-- What is asked of a repository. -/
inductive Request where
  | put (o : Object)
  | delete (id keyspace type : String)
  | deleteAllOf (keyspace : String)
  | get (id keyspace type : String)
  | getAllOf (keyspace type : String)
  | contains (id keyspace : String)
  | count (keyspace : String)
  | find (keyspace type : String) (q : Query)

namespace Request

/-- The keyspace that the request names, if it does. -/
def keyspace? : Request → Option String
  | put _ => none
  | delete _ keyspace _ => some keyspace
  | deleteAllOf keyspace => some keyspace
  | get _ keyspace _ => some keyspace
  | getAllOf keyspace _ => some keyspace
  | contains _ keyspace => some keyspace
  | count keyspace => some keyspace
  | find keyspace _ _ => some keyspace

/-- The request names a keyspace, if any, that is one. -/
def Proper (q : Request) : Prop := ∀ keyspace ∈ q.keyspace?, isKeyspace keyspace = true

/-- Whether the request is to yield entities, with those they refer to. -/
def isLoading : Request → Bool
  | get _ _ _ => true
  | getAllOf _ _ => true
  | find _ _ _ => true
  | _ => false

end Request

/-- Serves a request; yields whether it succeeds, and the repository after it. -/
def Repository.serve (repo : Repository) : Request → Except Error Unit × Repository
  | .put o => ((repo.put o).id.map fun _ => (), (repo.put o).repository)
  | .delete id keyspace type =>
    ((repo.delete id keyspace type).1.map fun _ => (), (repo.delete id keyspace type).2)
  | .deleteAllOf keyspace => repo.deleteAllOf keyspace
  | .get id keyspace type => ((repo.get id keyspace type).map fun _ => (), repo)
  | .getAllOf keyspace type => ((repo.getAllOf keyspace type).map fun _ => (), repo)
  | .contains id keyspace => ((repo.contains id keyspace).map fun _ => (), repo)
  | .count keyspace => ((repo.count keyspace).map fun _ => (), repo)
  | .find keyspace type q => ((repo.find keyspace type q).map fun _ => (), repo)

/-- The entity that storing an object puts into a catalog, if it succeeds. -/
def Repository.stores? (repo : Repository) (o : Object) : Option Entity :=
  (repo.put o).id.toOption.bind fun _ => (repo.prepare o).entity.toOption

/-- The catalog after a request to the repository that stands for it. -/
def Catalog.after (m : Catalog) (repo : Repository) : Request → Catalog
  | .put o => ((repo.stores? o).map m.put).getD m
  | .delete id keyspace _ => m.delete keyspace id
  | .deleteAllOf keyspace => m.deleteAllOf keyspace
  | _ => m

/-- Serves requests one after another, and keeps the catalog beside. -/
def Repository.run (repo : Repository) (m : Catalog) (qs : List Request) : Repository × Catalog :=
  qs.foldl (fun s q => ((s.1.serve q).2, s.2.after s.1 q)) (repo, m)

/-- What each request preserves, a run preserves. -/
theorem Repository.run_preserves {P : Repository → Catalog → Prop} {qs : List Request}
    (hstep : ∀ repo m, ∀ q ∈ qs, P repo m → P (repo.serve q).2 (m.after repo q))
    {repo : Repository} {m : Catalog} (h : P repo m) : P (repo.run m qs).1 (repo.run m qs).2 := by
  induction qs generalizing repo m with
  | nil => exact h
  | cons q qs ih =>
    exact ih (fun repo m q' hq' => hstep repo m q' (List.mem_cons_of_mem _ hq'))
      (hstep repo m q List.mem_cons_self h)

/-! ## Preparing -/

namespace Repository

/-- Only the indexes and the count of the ids given out change before an entity is stored. -/
structure Follows (repo repo' : Repository) : Prop where
  registry : repo'.registry = repo.registry
  store : repo'.store = repo.store

theorem follows_write (repo : Repository) (o : Object) : repo.Follows (repo.write o).2 :=
  ⟨rfl, rfl⟩

theorem own_of_write {repo : Repository} {o : Object} {e : Error}
    (h : (repo.write o).1 = .error e) : e.Own := Registry.write_own h

theorem entityOf_eq_ok {o : Object} {record : Record} {e : Entity}
    (h : entityOf o record = .ok e) : record = e.record ∧ record.keyspace = some e.keyspace := by
  unfold entityOf at h
  split at h
  · next hk _ =>
    cases h
    exact ⟨rfl, hk⟩
  · cases h

theorem own_of_entityOf {o : Object} {record : Record} {e : Error}
    (h : entityOf o record = .error e) : e.Own := by
  unfold entityOf at h
  split at h <;> cases h
  exact fun _ h => by cases h

/-- An object that is given an id has it for the property that holds the id. -/
theorem exists_of_identify {repo repo' : Repository} {o o' : Object}
    (h : repo.identify o = .ok (o', repo')) :
    ∃ t p, repo.registry.find? o.type = some t ∧ t.idProperty? = some p ∧
      o' = o.set p.name (.text (repo.freshId repo.given)) ∧
      repo' = { repo with given := repo.given + 1 } := by
  obtain ⟨p?, hp, h⟩ := Outcome.bind_eq_ok_iff.1 h
  obtain ⟨t, ht, hp⟩ := Outcome.bind_eq_ok_iff.1 hp
  cases p? with
  | none => cases h
  | some p =>
    cases h
    rw [Outcome.pure_eq_ok_iff] at hp
    split at hp
    · exact ⟨t, p, Registry.get_eq_ok_iff.1 ht, (Option.filter_eq_some_iff.1 hp).1, rfl, rfl⟩
    · cases hp

theorem own_of_identify {repo : Repository} {o : Object} {e : Error}
    (h : repo.identify o = .error e) : e.Own := by
  rcases Outcome.bind_eq_error_iff.1 h with h | ⟨p?, -, h⟩
  · rcases Outcome.bind_eq_error_iff.1 h with h | ⟨t, -, h⟩
    · exact Registry.own_of_get h
    · cases h
  · cases p? <;> cases h
    exact fun _ h => by cases h

/-- How the preparing of an object may end: the object cannot be written, its record has an id, or
has none and gets none, or the object is given an id and written again. -/
inductive Preparing (repo : Repository) (o : Object) : Prepared → Prop
  | unwritten {e : Error} (hw : (repo.write o).1 = .error e) :
    Preparing repo o ⟨.error e, o, (repo.write o).2⟩
  | named {record : Record} (hw : (repo.write o).1 = .ok record) :
    Preparing repo o ⟨entityOf o record, o, (repo.write o).2⟩
  | unnamed {e : Error} (hi : (repo.write o).2.identify o = .error e) :
    Preparing repo o ⟨.error e, o, (repo.write o).2⟩
  | identified {record : Record} {o' : Object} {repo' : Repository}
    (hw : (repo.write o).1 = .ok record) (hid : record.id = none)
    (hi : (repo.write o).2.identify o = .ok (o', repo')) :
    Preparing repo o ⟨(repo'.write o').1 >>= entityOf o', o', (repo'.write o').2⟩

theorem preparing (repo : Repository) (o : Object) : Preparing repo o (repo.prepare o) := by
  unfold prepare
  cases hw : repo.write o with
  | mk result repo₁ =>
    obtain rfl : (repo.write o).1 = result := congrArg Prod.fst hw
    obtain rfl : (repo.write o).2 = repo₁ := congrArg Prod.snd hw
    cases hr : (repo.write o).1 with
    | error e => exact .unwritten hr
    | ok record =>
      dsimp only
      split
      · exact .named hr
      · next hid =>
        cases hi : (repo.write o).2.identify o with
        | error e => exact .unnamed hi
        | ok out => exact .identified hr (by simpa using hid) hi

theorem follows_prepare (repo : Repository) (o : Object) :
    repo.Follows (repo.prepare o).repository := by
  have h := repo.preparing o
  generalize repo.prepare o = p at h ⊢
  cases h with
  | unwritten | named | unnamed => exact repo.follows_write o
  | identified _ _ hi =>
    obtain ⟨t, p, -, -, -, rfl⟩ := exists_of_identify hi
    exact ⟨rfl, rfl⟩

theorem own_of_prepare {repo : Repository} {o : Object} {e : Error}
    (he : (repo.prepare o).entity = .error e) : e.Own := by
  have h := repo.preparing o
  generalize repo.prepare o = p at h he
  cases h with
  | unwritten hw =>
    cases he
    exact own_of_write hw
  | named => exact own_of_entityOf he
  | unnamed hi =>
    cases he
    exact own_of_identify hi
  | identified =>
    rcases Outcome.bind_eq_error_iff.1 he with hw | ⟨record, -, he⟩
    · exact own_of_write hw
    · exact own_of_entityOf he

/-- What a write makes of the indexes. -/
theorem contains_write {repo : Repository} {d : IndexDefinition}
    (h : repo.indexes.contains d = true) (o : Object) :
    (repo.write o).2.indexes.contains d = true := Registry.contains_write_iff.2 (.inl h)

/-- What is stored is the record of the object, as it is or, if its record has no id, with a new
one. -/
theorem exists_written_of_prepare {repo : Repository} {o : Object} {e : Entity}
    (he : (repo.prepare o).entity = .ok e) :
    ∃ o' ix, (repo.registry.write ix o').1 = .ok e.record ∧
      e.record.keyspace = some e.keyspace ∧
      (∀ d, repo.indexes.contains d = true → ix.contains d = true) ∧
      (o' = o ∨ ∃ record t p s, (repo.registry.write repo.indexes o).1 = .ok record ∧
        record.id = none ∧ repo.registry.find? o.type = some t ∧ t.idProperty? = some p ∧
        o' = o.set p.name (.text s)) := by
  have h := repo.preparing o
  generalize repo.prepare o = p at h he
  cases h with
  | unwritten | unnamed => cases he
  | named hw =>
    obtain ⟨rfl, hk⟩ := entityOf_eq_ok he
    exact ⟨o, repo.indexes, hw, hk, fun _ => id, .inl rfl⟩
  | identified hw hid hi =>
    obtain ⟨t, p, ht, hp, rfl, rfl⟩ := exists_of_identify hi
    obtain ⟨record, hw', he⟩ := Outcome.bind_eq_ok_iff.1 he
    obtain ⟨rfl, hk⟩ := entityOf_eq_ok he
    exact ⟨_, _, hw', hk, fun d hd => contains_write hd o, .inr ⟨_, t, p, _, hw, hid, ht, hp, rfl⟩⟩

/-- What is to be stored has a keyspace, and its record knows it. -/
def Entity.Fit (e : Entity) : Prop :=
  isKeyspace e.keyspace = true ∧ e.record.keyspace = some e.keyspace

theorem fit_of_prepare {repo : Repository} (hb : repo.registry.Built) {o : Object} {e : Entity}
    (he : (repo.prepare o).entity = .ok e) : e.Fit := by
  obtain ⟨o', ix, hw, hk, -⟩ := exists_written_of_prepare he
  obtain ⟨t, ht, ht'⟩ := Registry.keyspace_of_write hw
  have hkeyspace : e.keyspace = t.keyspace := Option.some.inj (hk.symm.trans ht')
  exact ⟨hkeyspace ▸ (hb.sound ht).2.keyspace, hk⟩

/-- What an object is prepared to is fit to be stored, and an error is none of the store. -/
theorem prepare_spec {repo : Repository} (hb : repo.registry.Built) (o : Object) :
    repo.Follows (repo.prepare o).repository ∧
      (∀ e, (repo.prepare o).entity = .ok e → e.Fit) ∧
        ∀ e, (repo.prepare o).entity = .error e → e.Own :=
  ⟨repo.follows_prepare o, fun _ => fit_of_prepare hb, fun _ => own_of_prepare⟩

theorem put_of_error {repo : Repository} {o : Object} {e : Error}
    (h : (repo.prepare o).entity = .error e) :
    repo.put o = ⟨.error e, (repo.prepare o).object, (repo.prepare o).repository⟩ := by
  unfold put
  dsimp only
  rw [h]

theorem put_of_ok {repo repo' : Repository} {o : Object} {e : Entity}
    (h : (repo.prepare o).entity = .ok e)
    (hs : (repo.prepare o).repository.save e = (.ok (), repo')) :
    repo.put o = ⟨.ok e.id, (repo.prepare o).object, repo'⟩ := by
  unfold put
  dsimp only
  rw [h]
  dsimp only
  rw [hs]
  rfl

end Repository

/-! ## The invariant -/

/-- The store of the repository is the image of the catalog. -/
structure Stands (repo : Repository) (m : Catalog) : Prop where
  built : repo.registry.Built
  proper : m.Proper
  store : repo.store = m.image

namespace Stands

variable {repo : Repository} {m : Catalog}

/-- Storing an object puts its entity into the catalog, or fails before the store is touched. -/
theorem put (h : Stands repo m) (o : Object) :
    (∃ e, (repo.put o).id = .ok e.id ∧ repo.stores? o = some e ∧
        Stands (repo.put o).repository (m.put e)) ∨
      ∃ e, (repo.put o).id = .error e ∧ e.Own ∧ repo.stores? o = none ∧
        Stands (repo.put o).repository m := by
  obtain ⟨hf, hfit, hown⟩ := Repository.prepare_spec h.built o
  cases he : (repo.prepare o).entity with
  | error e =>
    have hput := Repository.put_of_error he
    refine Or.inr ⟨e, by rw [hput], hown e he, by rw [Repository.stores?, hput]; rfl, ?_⟩
    rw [hput]
    exact ⟨hf.registry ▸ h.built, h.proper, hf.store.trans h.store⟩
  | ok e =>
    obtain ⟨hk, hr⟩ := hfit e he
    have hput := Repository.put_of_ok he
      (Catalog.save_image h.proper hk hr (hf.store.trans h.store))
    refine Or.inl ⟨e, by rw [hput], by rw [Repository.stores?, hput, he]; rfl, ?_⟩
    rw [hput]
    exact ⟨hf.registry ▸ h.built, h.proper.put hk hr, rfl⟩

/-- Deleting an entity yields it as its entries read in the store without it. -/
theorem delete_eq (h : Stands repo m) {keyspace : String} (hk : isKeyspace keyspace = true)
    (id type : String) :
    ∃ es?, Repository.entries? repo.store id keyspace = .ok es? ∧
      repo.delete id keyspace type =
        (.ok (es?.bind fun es =>
            (Repository.load repo.registry (m.delete keyspace id).image type es).toOption.join),
          { repo with store := (m.delete keyspace id).image }) := by
  obtain ⟨es?, hes, -⟩ := Catalog.entries?_of_isKeyspace h.proper hk id
  rw [← h.store] at hes
  refine ⟨es?, hes, ?_⟩
  obtain ⟨changes, hremoval, hchange⟩ := Catalog.removal_image h.proper hk id
  have hcontains : repo.contains id keyspace =
      .ok ((m.ids keyspace).contains (Utf8.encode id)) := by
    rw [Repository.contains, h.store, Catalog.isMember_image h.proper hk]
    rfl
  have hchanged : repo.changeAll changes =
      (.ok (), { repo with store := (m.delete keyspace id).image }) := by
    rw [Repository.changeAll, h.store, hchange]
    rfl
  rw [Repository.delete, hes, hcontains, h.store, hremoval]
  cases es? with
  | some es =>
    simp only [bind, Except.bind, pure, Except.pure, Option.isSome_some, if_true, hchanged]
  | none =>
    by_cases hid : Utf8.encode id ∈ m.ids keyspace
    · simp only [bind, Except.bind, pure, Except.pure, Option.isSome_none, Bool.false_eq_true,
        if_false, if_true, List.contains_iff_mem.2 hid, hchanged, Option.bind_none]
    · have hc : (m.ids keyspace).contains (Utf8.encode id) = false := by simpa using hid
      simp only [bind, Except.bind, pure, Except.pure, Option.isSome_none, Bool.false_eq_true,
        if_false, hc, Option.bind_none, Catalog.image_delete_of_not_mem h.proper hid, ← h.store]

/-- Deleting an entity succeeds, and takes it out of the catalog. -/
theorem delete (h : Stands repo m) {keyspace : String} (hk : isKeyspace keyspace = true)
    (id type : String) :
    (∃ o?, (repo.delete id keyspace type).1 = .ok o?) ∧
      Stands (repo.delete id keyspace type).2 (m.delete keyspace id) := by
  obtain ⟨es?, -, hdelete⟩ := h.delete_eq hk id type
  rw [hdelete]
  exact ⟨⟨_, rfl⟩, h.built, h.proper.delete _ _, rfl⟩

/-- Deleting all entities of a keyspace succeeds, and takes them out of the catalog. -/
theorem deleteAllOf (h : Stands repo m) {keyspace : String} (hk : isKeyspace keyspace = true) :
    (repo.deleteAllOf keyspace).1 = .ok () ∧
      Stands (repo.deleteAllOf keyspace).2 (m.deleteAllOf keyspace) := by
  obtain ⟨changes, hremoval, hchange⟩ := Catalog.removalOfAll_image h.proper hk
  have hdone : repo.deleteAllOf keyspace =
      (.ok (), { repo with store := (m.deleteAllOf keyspace).image }) := by
    rw [Repository.deleteAllOf, h.store, hremoval]
    dsimp only
    rw [Repository.changeAll, h.store, hchange]
    rfl
  rw [hdone]
  exact ⟨rfl, h.built, h.proper.deleteAllOf _, rfl⟩

/-- A request leads from a repository that stands for a catalog to one that stands for the catalog
after the request. -/
theorem serve (h : Stands repo m) {q : Request} (hq : q.Proper) :
    Stands (repo.serve q).2 (m.after repo q) := by
  cases q with
  | put o =>
    rcases h.put o with ⟨e, -, hs, hstands⟩ | ⟨e, -, -, hs, hstands⟩
    · rw [Catalog.after, hs]
      exact hstands
    · rw [Catalog.after, hs]
      exact hstands
  | delete id keyspace type => exact (h.delete (hq keyspace rfl) id type).2
  | deleteAllOf keyspace => exact (h.deleteAllOf (hq keyspace rfl)).2
  | get id keyspace type => exact h
  | getAllOf keyspace type => exact h
  | contains id keyspace => exact h
  | count keyspace => exact h
  | find keyspace type q => exact h

/-- A request that fails leaves the store as it is, and its error is one of the store only if it
is to load entities and meets a stray pointer. -/
theorem error (h : Stands repo m) {q : Request} (hq : q.Proper) {e : Error}
    (he : (repo.serve q).1 = .error e) :
    (repo.serve q).2.store = repo.store ∧
      ∀ cause, e = .store cause → q.isLoading = true ∧ m.Stray cause := by
  cases q with
  | put o =>
    rcases h.put o with ⟨e', hid, -, -⟩ | ⟨e', hid, hown, -, hstands⟩
    · rw [Repository.serve, hid] at he
      cases he
    · rw [Repository.serve, hid] at he
      cases he
      exact ⟨hstands.store.trans h.store.symm, fun cause hc => absurd hc (hown cause)⟩
  | delete id keyspace type =>
    obtain ⟨o?, ho⟩ := (h.delete (hq keyspace rfl) id type).1
    rw [Repository.serve, ho] at he
    cases he
  | deleteAllOf keyspace =>
    have hdone := (h.deleteAllOf (hq keyspace rfl)).1
    rw [Repository.serve, hdone] at he
    cases he
  | get id keyspace type =>
    refine ⟨rfl, fun cause hc => ⟨rfl, ?_⟩⟩
    subst hc
    exact Catalog.get_image h.proper (hq keyspace rfl) h.store (Outcome.map_eq_error_iff.1 he)
  | getAllOf keyspace type =>
    refine ⟨rfl, fun cause hc => ⟨rfl, ?_⟩⟩
    subst hc
    exact Catalog.getAllOf_image h.proper (hq keyspace rfl) h.store (Outcome.map_eq_error_iff.1 he)
  | contains id keyspace =>
    have hc := Catalog.isMember_image h.proper (hq keyspace rfl) (Utf8.encode id)
    rw [Repository.serve, Repository.contains, h.store, hc] at he
    cases he
  | count keyspace =>
    have hc := Catalog.members_image h.proper (hq keyspace rfl)
    rw [Repository.serve, Repository.count, Store.card, h.store, hc] at he
    cases he
  | find keyspace type q =>
    refine ⟨rfl, fun cause hc => ⟨rfl, ?_⟩⟩
    subst hc
    exact Catalog.find_image h.proper (hq keyspace rfl) h.store (Outcome.map_eq_error_iff.1 he)

/-- The invariant holds after a whole run. -/
theorem run (h : Stands repo m) {qs : List Request} (hq : ∀ q ∈ qs, q.Proper) :
    Stands (repo.run m qs).1 (repo.run m qs).2 :=
  Repository.run_preserves (fun _ _ q hq' h => h.serve (hq q hq')) h

end Stands

/-- **After any run the store is the image of the catalog.** A request that fails then leaves the
store as it is, and an error of the store comes only of loading entities, for a stray pointer. -/
theorem store_eq_image {repo : Repository} (hb : repo.registry.Built) (hs : repo.store = {})
    {qs : List Request} (hq : ∀ q ∈ qs, q.Proper) :
    (repo.run [] qs).1.store = (repo.run [] qs).2.image ∧
      ∀ q : Request, q.Proper → ∀ e, ((repo.run [] qs).1.serve q).1 = .error e →
        ((repo.run [] qs).1.serve q).2.store = (repo.run [] qs).1.store ∧
          ∀ cause, e = .store cause →
            q.isLoading = true ∧ (repo.run [] qs).2.Stray cause := by
  have hstart : Stands repo [] := ⟨hb, fun _ he => (by cases he), hs⟩
  have hrun := hstart.run hq
  refine ⟨hrun.store, ?_⟩
  intro q hq e he
  exact hrun.error hq he

/-! ## A notebook -/

namespace Notebook

/-- The tag of a note. -/
def tag : Property := { name := "tag", shape := .single (.scalar .text), isIndexed := true }

/-- Other notes. -/
def seeAlso : Property := { name := "seeAlso", shape := .list (.entity "N"), isReference := true }

/-- The parts of a note, under their titles. -/
def parts : Property := { name := "parts", shape := .map .text (.entity "N") }

/-- Notes have a tag, refer to others, and have parts. -/
def note : EntityType :=
  { name := "N"
    properties := [{ name := "id", shape := .single (.scalar .text), isId := true },
      tag, seeAlso, parts] }

/-- An empty repository of notes. -/
def empty : Repository := { registry := ⟨[("N", note)]⟩, freshId := fun _ => "new" }

theorem built : empty.registry.Built := .register .empty (t := note) (by rfl)

/-- A note with a part that has the key of an index set for its tag. In the title of the part a
bracket closes, so that the tag stands where a reference of another part would. -/
def odd : Object :=
  ⟨"N", [("id", .text "1"), ("tag", .text "x"),
    ("parts", .map [(.text "a].seeAlso.[0", .object "N" [("tag", .text "N.tag:x")])])]⟩

/-- The tag is taken for a pointer, and where it points to there is a set. -/
theorem get_odd : ((empty.run [] [.put odd]).1.serve (.get "1" "N" "N")).1 =
    .error (.store (.notHash (Repository.indexKey "N" "tag:x"))) := by
  decide +kernel

theorem proper_get : (Request.get "1" "N" "N").Proper := by
  intro keyspace hk
  cases hk
  decide

theorem proper_put : ∀ q ∈ [Request.put odd], q.Proper := by
  intro q hq
  rw [List.mem_singleton.1 hq]
  intro keyspace hk
  cases hk

end Notebook

open Notebook in
/-- The tag of the odd note is a stray pointer. -/
theorem store_eq_image_odd :
    (empty.run [] [.put odd]).1.store = (empty.run [] [.put odd]).2.image ∧
      (empty.run [] [.put odd]).2.Stray (.notHash (Repository.indexKey "N" "tag:x")) := by
  obtain ⟨himage, herror⟩ := store_eq_image built rfl proper_put
  obtain ⟨-, hcause⟩ := herror (.get "1" "N" "N") proper_get _ get_odd
  exact ⟨himage, (hcause _ rfl).2⟩

open Notebook in
/-- An operation may find a set where it looks for a hash. -/
theorem not_forall_hash :
    ¬ ∀ repo : Repository, repo.registry.Built → repo.registry.NoEmptyType →
      (∀ n, repo.freshId n ≠ "") → repo.store = {} →
        ∀ qs : List Request, (∀ q ∈ qs, q.Proper) → ∀ q : Request, q.Proper → ∀ key,
          ((repo.run [] qs).1.serve q).1 ≠ .error (.store (.notHash key)) := by
  intro h
  have hnames : empty.registry.NoEmptyType := .of_types (by decide)
  have hfresh : ∀ n, empty.freshId n ≠ "" := by
    intro n
    show "new" ≠ ""
    decide
  exact h empty built hnames hfresh rfl [.put odd] proper_put (.get "1" "N" "N") proper_get _
    get_odd

end FlatGraph
