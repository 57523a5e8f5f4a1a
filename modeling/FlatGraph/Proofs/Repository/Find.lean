import FlatGraph.Proofs.Repository.Run
import Mathlib.Data.List.Pairwise

/-!
# Finding entities

**Theorem (`find_selected`).** After any run of requests a query finds the entities that it selects
(`Query.selects`), each once and in ascending order of their ids: those whose last stored records
have the index fragments of all its first criteria, or of one of the others. It fails exactly if one
of these entities cannot be got.

The index sets in the image of a catalog are those of the catalog (`having_image`), so that a query
selects in the store what it selects in the catalog (`select_image_eq`). For that each id has to be
the one of a single record, which is one more invariant of runs (`distinct_run`).
-/

namespace FlatGraph

open EntityType (isKeyspace)
open Repository (Entity)

/-! ## Queries -/

namespace Query

/-- Whether a record meets a criterion: it has the index fragment of the criterion. -/
def meets (record : Record) (c : Criterion) : Bool :=
  match c.2.toText with
  | .ok text => record.fragments.contains (Path.indexFragment c.1 text)
  | .error _ => false

/-- Whether a query selects a record: one without criteria each of them, and any other those that
meet all of the first criteria, if there are any, or at least one of the others. -/
def selects (q : Query) (record : Record) : Bool :=
  q.isEmpty || (!q.allOf.isEmpty && q.allOf.all (meets record)) || q.anyOf.any (meets record)

theorem selects_of_isEmpty {q : Query} (h : q.isEmpty = true) : q.selects = fun _ => true := by
  funext record
  rw [selects, h, Bool.true_or, Bool.true_or]

/-- Criteria with scalars have index fragments, by which records meet them. -/
theorem exists_fragments {cs : List Criterion} (h : ∀ c ∈ cs, c.2.isScalar = true) :
    ∃ fs, cs.mapM fragment = .ok fs ∧
      ∀ record : Record, cs.map (meets record) = fs.map record.fragments.contains := by
  have hone : ∀ c ∈ cs, ∃ f, fragment c = .ok f ∧
      ∀ record : Record, meets record c = record.fragments.contains f := fun c hc => by
    obtain ⟨text, ht⟩ := Value.exists_toText (h c hc)
    exact ⟨_, by rw [fragment, if_pos (h c hc), ht], fun record => by rw [meets, ht]⟩
  obtain ⟨fs, hf⟩ := Lists.exists_forall₂ hone
  exact ⟨fs, Outcome.mapM_eq_ok_iff.2 (hf.imp fun _ _ h => h.1), fun record =>
    Lists.map_eq_map_of_forall₂ hf fun _ _ h => h.2 record⟩

/-- A query with criteria selects by the index fragments of its criteria. -/
theorem exists_selects_iff {q : Query} (hq : q.isEmpty = false)
    (hc : ∀ c ∈ q.allOf ++ q.anyOf, c.2.isScalar = true) :
    ∃ fs gs, q.fragments = .ok (fs, gs) ∧ ∀ record : Record, q.selects record = true ↔
      (fs ≠ [] ∧ ∀ f ∈ fs, f ∈ record.fragments) ∨ ∃ g ∈ gs, g ∈ record.fragments := by
  obtain ⟨fs, hfs, hall⟩ := exists_fragments fun c hm => hc c (List.mem_append_left _ hm)
  obtain ⟨gs, hgs, hany⟩ := exists_fragments fun c hm => hc c (List.mem_append_right _ hm)
  refine ⟨fs, gs, by rw [fragments, hfs, hgs]; rfl, fun record => ?_⟩
  have hempty := congrArg List.isEmpty (hall record)
  have hfirst := congrArg (List.all · id) (hall record)
  have hothers := congrArg (List.any · id) (hany record)
  simp only [List.isEmpty_map, List.all_map, List.any_map, Function.id_comp]
    at hempty hfirst hothers
  rw [selects, hq, hempty, hfirst, hothers]
  simp

end Query

/-! ## Catalogs with different ids -/

namespace Catalog

/-- No two entities of a keyspace have the same id. -/
def Distinct (m : Catalog) : Prop :=
  m.Pairwise fun e f => ¬ (e.keyspace = f.keyspace ∧ e.id = f.id)

variable {m : Catalog} {keyspace id : String}

theorem Distinct.delete (h : m.Distinct) (keyspace id : String) : (m.delete keyspace id).Distinct :=
  List.Pairwise.filter _ h

theorem Distinct.deleteAllOf (h : m.Distinct) (keyspace : String) :
    (m.deleteAllOf keyspace).Distinct := List.Pairwise.filter _ h

theorem Distinct.put (h : m.Distinct) (e : Entity) : (m.put e).Distinct := by
  refine List.pairwise_append.2 ⟨h.delete _ _, List.pairwise_singleton _ _, fun f hf g hg => ?_⟩
  rw [List.mem_singleton.1 hg]
  exact (mem_delete_iff.1 hf).2

/-- A request leaves the ids different. -/
theorem Distinct.after (h : m.Distinct) (repo : Repository) (q : Request) :
    (m.after repo q).Distinct := by
  cases q with
  | put o =>
    rw [Catalog.after]
    cases repo.stores? o with
    | none => exact h
    | some e => exact h.put e
  | delete id keyspace type => exact h.delete keyspace id
  | deleteAllOf keyspace => exact h.deleteAllOf keyspace
  | get | getAllOf | contains | count | find => exact h

theorem distinct_run {repo : Repository} {qs : List Request} : (repo.run [] qs).2.Distinct :=
  @Repository.run_preserves (fun _ m => m.Distinct) qs (fun repo _ q _ h => h.after repo q) _ _
    .nil

theorem get?_eq_some_iff (h : m.Distinct) {record : Record} :
    m.get? keyspace id = some record ↔ ⟨keyspace, id, record⟩ ∈ m := by
  constructor
  · intro hr
    obtain ⟨e, he, rfl, rfl, rfl⟩ := get?_eq_some hr
    exact he
  · intro hm
    have hsome : m.get? keyspace id ≠ none := fun hnone => by
      have := List.find?_eq_none.1 (Option.map_eq_none_iff.1 hnone) _ hm
      simp at this
    obtain ⟨record', hr⟩ := Option.ne_none_iff_exists'.1 hsome
    obtain ⟨e, he, rfl, rfl, rfl⟩ := get?_eq_some hr
    have hsymm : Std.Symm fun e f : Entity => ¬ (e.keyspace = f.keyspace ∧ e.id = f.id) :=
      ⟨fun e f hne hfe => hne ⟨hfe.1.symm, hfe.2.symm⟩⟩
    by_contra hne
    exact h.forall he hm (fun heq => hne (by rw [hr, heq])) ⟨rfl, rfl⟩

/-- The record of an id tells whether the id is among those of a kind. -/
theorem encode_mem_idsOf_iff (h : m.Distinct) {record : Record}
    (hr : m.get? keyspace id = some record) {p : Record → Bool} :
    Utf8.encode id ∈ m.idsOf keyspace p ↔ p record = true := by
  rw [mem_idsOf_iff]
  constructor
  · rintro ⟨e, he, ⟨rfl, hp⟩, hid⟩
    cases Utf8.encode_inj.1 hid
    cases hr.symm.trans ((get?_eq_some_iff h).2 he)
    exact hp
  · intro hp
    obtain ⟨e, he, hk, hid, rfl⟩ := get?_eq_some hr
    exact ⟨e, he, ⟨hk, hp⟩, by rw [hid]⟩

/-- Ids of a kind are those of records. -/
theorem exists_record_of_mem_idsOf (h : m.Distinct) {p : Record → Bool} {b : Bytes}
    (hb : b ∈ m.idsOf keyspace p) :
    ∃ id record, Utf8.encode id = b ∧ m.get? keyspace id = some record ∧ p record = true := by
  obtain ⟨e, he, ⟨rfl, hp⟩, rfl⟩ := mem_idsOf_iff.1 hb
  exact ⟨e.id, e.record, rfl, (get?_eq_some_iff h).2 he, hp⟩

/-! ## Selecting -/

theorem mem_common_iff {sets : List (List Bytes)} {b : Bytes} :
    b ∈ Repository.common sets ↔ sets ≠ [] ∧ ∀ ids ∈ sets, b ∈ ids := by
  cases sets with
  | nil => simp [Repository.common]
  | cons ids others => simp [Repository.common]

theorem pairwise_common {sets : List (List Bytes)} (h : ∀ ids ∈ sets, ids.Pairwise (· < ·)) :
    (Repository.common sets).Pairwise (· < ·) := by
  cases sets with
  | nil => exact .nil
  | cons ids others => exact (h ids List.mem_cons_self).sublist List.filter_sublist

theorem mapM_having_image {repo : Repository} (hm : m.Proper) (hk : isKeyspace keyspace = true)
    (hs : repo.store = m.image) (fs : List String) :
    fs.mapM (repo.having keyspace) = .ok (fs.map (m.having keyspace)) := by
  rw [Outcome.mapM_eq_ok_iff, List.forall₂_map_right_iff, List.forall₂_same]
  exact fun f _ => having_image hm hk hs f

/-- **A query with criteria selects in the image of a catalog what it selects in the catalog.** -/
theorem select_image_eq {repo : Repository} (hm : m.Proper) (hd : m.Distinct)
    (hk : isKeyspace keyspace = true) (hs : repo.store = m.image) {q : Query}
    (hq : q.isEmpty = false) (hc : ∀ c ∈ q.allOf ++ q.anyOf, c.2.isScalar = true) :
    repo.select keyspace q = .ok (m.idsOf keyspace q.selects) := by
  obtain ⟨fs, gs, hfragments, hselects⟩ := Query.exists_selects_iff hq hc
  have hselect : repo.select keyspace q = .ok ((gs.map (m.having keyspace)).flatten.foldl
      (fun ids id => Sorted.insert id ids) (Repository.common (fs.map (m.having keyspace)))) := by
    rw [Repository.select, hfragments]
    simp only [bind, Except.bind, pure, Except.pure, mapM_having_image hm hk hs]
  rw [hselect]
  congr 1
  refine Sorted.eq_of_mem_iff (Sorted.pairwise_foldl_insert _ (pairwise_common ?_))
    (pairwise_idsOf _ _ _) fun b => ?_
  · intro ids hids
    obtain ⟨f, -, rfl⟩ := List.mem_map.1 hids
    exact pairwise_idsOf _ _ _
  rw [Sorted.mem_foldl_insert, mem_common_iff]
  simp only [List.mem_flatten, List.mem_map, exists_exists_and_eq_and, forall_exists_index, and_imp,
    forall_apply_eq_imp_iff₂, ne_eq, List.map_eq_nil_iff]
  -- An id in any of the sets is the one of a record, which tells what other sets it is in.
  constructor
  · intro h
    have hb : b ∈ m.ids keyspace := by
      rcases h with ⟨hne, h⟩ | ⟨g, -, h⟩
      · obtain ⟨f, hf⟩ := List.exists_mem_of_ne_nil fs hne
        exact mem_ids_of_mem_having (h f hf)
      · exact mem_ids_of_mem_having h
    obtain ⟨id, record, rfl, hr, -⟩ := exists_record_of_mem_idsOf hd hb
    simpa [encode_mem_idsOf_iff hd hr, hselects, having] using h
  · intro h
    obtain ⟨id, record, rfl, hr, -⟩ := exists_record_of_mem_idsOf hd h
    simpa [encode_mem_idsOf_iff hd hr, hselects, having] using h

/-- The ids of the entities that a query selects, in ascending order of their bytes. -/
def selected (m : Catalog) (keyspace : String) (q : Query) : List String :=
  (m.idsOf keyspace q.selects).map Utf8.lossy

theorem map_encode_selected (h : m.Distinct) (q : Query) :
    (m.selected keyspace q).map Utf8.encode = m.idsOf keyspace q.selects := by
  rw [selected, List.map_map]
  refine (List.map_congr_left fun b hb => ?_).trans (List.map_id _)
  obtain ⟨id, record, rfl, -⟩ := exists_record_of_mem_idsOf h hb
  rw [Function.comp_apply, Utf8.lossy_encode]
  rfl

theorem mem_selected_iff (h : m.Distinct) {q : Query} :
    id ∈ m.selected keyspace q ↔
      ∃ record, m.get? keyspace id = some record ∧ q.selects record = true := by
  rw [← List.mem_map_of_injective Utf8.encode_injective, map_encode_selected h]
  constructor
  · intro hid
    obtain ⟨id', record, heq, hr⟩ := exists_record_of_mem_idsOf h hid
    cases Utf8.encode_inj.1 heq
    exact ⟨record, hr⟩
  · rintro ⟨record, hr, hq⟩
    exact (encode_mem_idsOf_iff h hr).2 hq

end Catalog

/-! ## Records that hold something -/

namespace Repository

/-- The repository in which a request changes the store: an object is prepared before it is
stored. -/
def prior (repo : Repository) : Request → Repository
  | .put o => (repo.prepare o).repository
  | _ => repo

theorem exists_store_save (repo : Repository) (e : Entity) :
    ∃ s, (repo.save e).2 = { repo with store := s } := by
  unfold save
  split
  · exact ⟨repo.store, rfl⟩
  · exact ⟨_, rfl⟩

/-- Apart from preparing an object, a request changes nothing but the store. -/
theorem exists_store_serve (repo : Repository) (q : Request) :
    ∃ s, (repo.serve q).2 = { repo.prior q with store := s } := by
  cases q with
  | put o =>
    show ∃ s, (repo.put o).repository = { (repo.prepare o).repository with store := s }
    unfold put
    dsimp only
    split
    · exact ⟨(repo.prepare o).repository.store, rfl⟩
    · exact exists_store_save _ _
  | delete id keyspace type =>
    show ∃ s, (repo.delete id keyspace type).2 = { repo with store := s }
    unfold delete
    split
    · exact ⟨repo.store, rfl⟩
    · exact ⟨repo.store, rfl⟩
    · split <;> next hc => exact ⟨_, (congrArg Prod.snd hc).symm⟩
  | deleteAllOf keyspace =>
    show ∃ s, (repo.deleteAllOf keyspace).2 = { repo with store := s }
    unfold deleteAllOf
    split
    · exact ⟨repo.store, rfl⟩
    · exact ⟨_, rfl⟩
  | get | getAllOf | contains | count | find => exact ⟨repo.store, rfl⟩

/-- No request changes the registered types. -/
theorem registry_serve (repo : Repository) (hb : repo.registry.Built) (q : Request) :
    (repo.serve q).2.registry = repo.registry := by
  obtain ⟨s, hs⟩ := repo.exists_store_serve q
  rw [hs]
  cases q with
  | put o => exact (prepare_spec hb o).1.registry
  | _ => rfl

end Repository

namespace Catalog

/-- Each record holds something. -/
def Filled (m : Catalog) : Prop := ∀ e ∈ m, e.record.entries.size ≠ 0

/-- A request adds no empty record. -/
theorem Filled.after {m : Catalog} (h : m.Filled) {repo : Repository}
    (hn : repo.registry.NoEmptyType) (q : Request) : (m.after repo q).Filled := by
  cases q with
  | put o =>
    rw [Catalog.after]
    cases hs : repo.stores? o with
    | none => exact h
    | some e =>
      intro f hf
      rcases mem_put_iff.1 hf with ⟨hf, -⟩ | rfl
      · exact h f hf
      · obtain ⟨_, -, he⟩ := Option.bind_eq_some_iff.1 hs
        cases hp : (repo.prepare o).entity with
        | error e =>
          rw [hp] at he
          cases he
        | ok e =>
          rw [hp] at he
          cases he
          obtain ⟨o', ix, hw, -⟩ := Repository.exists_written_of_prepare hp
          exact Registry.size_ne_zero_of_write hn hw
  | delete id keyspace type => exact fun e he => h e (mem_delete_iff.1 he).1
  | deleteAllOf keyspace => exact fun e he => h e (mem_deleteAllOf_iff.1 he).1
  | get | getAllOf | contains | count | find => exact h

theorem filled_run {repo : Repository} (hb : repo.registry.Built)
    (hn : repo.registry.NoEmptyType) {qs : List Request} : (repo.run [] qs).2.Filled := by
  have hrun := @Repository.run_preserves
    (fun repo' m => repo'.registry = repo.registry ∧ m.Filled) qs
    (fun repo' m q _ h => ⟨(repo'.registry_serve (h.1 ▸ hb) q).trans h.1, h.2.after (h.1 ▸ hn) q⟩)
    repo [] ⟨rfl, fun _ he => nomatch he⟩
  exact hrun.2

end Catalog

/-- An entity whose record holds something is there to be got. -/
theorem Stands.get_ne_none {repo : Repository} {m : Catalog} (h : Stands repo m)
    (hf : m.Filled) {keyspace id : String} (hk : isKeyspace keyspace = true) {record : Record}
    (hr : m.get? keyspace id = some record) (type : String) :
    repo.get id keyspace type ≠ .ok none := by
  have hsize : record.entries.size ≠ 0 := by
    obtain ⟨e, he, -, -, rfl⟩ := Catalog.get?_eq_some hr
    exact hf e he
  have ha : (Address.entity keyspace id).Proper := hk
  have hhash : m.image.content? (Repository.entityKey keyspace id) =
      some (.hash record.entries.toRaw) := by
    rw [show Repository.entityKey keyspace id = (Address.entity keyspace id).key from rfl,
      Catalog.content?_image h.proper ha, Catalog.content?, hr]
    rfl
  have hentries := Repository.entries?_of_hash m.orderly_image hhash
  have hraw : record.entries.toRaw.isEmpty = false := by
    rw [← Bool.not_eq_true, List.isEmpty_iff_length_eq_zero, Entries.toRaw, List.length_map]
    exact hsize
  rw [hraw] at hentries
  rw [Repository.get, h.store, hentries]
  intro (hnone : Repository.load repo.registry m.image type record.entries = .ok none)
  rw [Repository.load, Registry.read, if_neg hsize] at hnone
  obtain ⟨o, -, ho⟩ := Traced.outcome_bind_eq_ok_iff.1 hnone
  cases ho

/-! ## Finding -/

section

variable {repo : Repository} {m : Catalog} {keyspace : String} {q : Query}

theorem Repository.getEach_eq (repo : Repository) (keyspace type : String) (ids : List Bytes) :
    repo.getEach keyspace type ids = (·.filterMap id) <$>
      (ids.map Utf8.lossy).mapM fun id => repo.get id keyspace type := by
  rw [getEach, List.mapM_map, bind_pure_comp]
  rfl

/-- A query gets the entities that it selects in the catalog. -/
theorem Stands.find_eq (h : Stands repo m) (hd : m.Distinct) (hk : isKeyspace keyspace = true)
    (hc : ∀ c ∈ q.allOf ++ q.anyOf, c.2.isScalar = true) (type : String) :
    repo.find keyspace type q = (·.filterMap id) <$>
      (m.selected keyspace q).mapM fun id => repo.get id keyspace type := by
  rw [Catalog.selected, ← Repository.getEach_eq]
  cases hq : q.isEmpty with
  | true =>
    rw [Repository.find, if_pos hq, Repository.getAllOf, h.store,
      Catalog.members_image h.proper hk, Query.selects_of_isEmpty hq]
    rfl
  | false =>
    rw [Repository.find, if_neg (by rw [hq]; decide),
      Catalog.select_image_eq h.proper hd hk h.store hq hc]
    rfl

/-- A query without criteria selects as many entities as there are. -/
theorem Stands.count_eq (h : Stands repo m) (hk : isKeyspace keyspace = true)
    (hq : q.isEmpty = true) : repo.count keyspace = .ok (m.selected keyspace q).length := by
  rw [Repository.count, Store.card, h.store, Catalog.members_image h.proper hk, Catalog.selected,
    List.length_map, Query.selects_of_isEmpty hq]
  rfl

end

/-- **After any run a query finds the entities that it selects**, each once, in ascending order of
their ids, and fails exactly if one of them cannot be got. None of them is missing, as long as types
have names. Without criteria it selects all entities of the keyspace, which `count` counts. -/
theorem find_selected {repo after : Repository} {m : Catalog} {qs : List Request}
    (hb : repo.registry.Built) (hs : repo.store = {}) (hq : ∀ q ∈ qs, q.Proper)
    (hrun : repo.run [] qs = (after, m)) {keyspace : String} (hk : isKeyspace keyspace = true)
    (q : Query) (hc : ∀ c ∈ q.allOf ++ q.anyOf, c.2.isScalar = true) :
    ∃ ids : List String, (ids.map Utf8.encode).Pairwise (· < ·) ∧
      (∀ id, id ∈ ids ↔ ∃ record, m.get? keyspace id = some record ∧ q.selects record = true) ∧
      (∀ type, after.find keyspace type q =
        (·.filterMap id) <$> ids.mapM fun id => after.get id keyspace type) ∧
      (∀ type, (∃ e, after.find keyspace type q = .error e) ↔
        ∃ id ∈ ids, ∃ e, after.get id keyspace type = .error e) ∧
      (repo.registry.NoEmptyType → ∀ type, ∀ id ∈ ids, after.get id keyspace type ≠ .ok none) ∧
      (q.isEmpty = true → after.count keyspace = .ok ids.length) := by
  obtain ⟨rfl, rfl⟩ : (repo.run [] qs).1 = after ∧ (repo.run [] qs).2 = m := by
    rw [hrun]
    exact ⟨rfl, rfl⟩
  have hstands : Stands (repo.run [] qs).1 (repo.run [] qs).2 :=
    (show Stands repo [] from ⟨hb, fun _ he => (by cases he), hs⟩).run hq
  have hd : (repo.run [] qs).2.Distinct := Catalog.distinct_run
  have hfind := hstands.find_eq hd hk hc
  have hfilled : repo.registry.NoEmptyType → (repo.run [] qs).2.Filled :=
    fun hn => Catalog.filled_run hb hn
  generalize (repo.run [] qs).1 = after, (repo.run [] qs).2 = m at *
  refine ⟨m.selected keyspace q, ?_, fun id => Catalog.mem_selected_iff hd, hfind, fun type => ?_,
    fun hn type id hid => ?_, hstands.count_eq hk⟩
  · rw [Catalog.map_encode_selected hd]
    exact m.pairwise_idsOf _ _
  · rw [hfind, ← Outcome.mapM_fails_iff]
    exact exists_congr fun e => Outcome.map_eq_error_iff
  · obtain ⟨record, hr, -⟩ := (Catalog.mem_selected_iff hd).1 hid
    exact hstands.get_ne_none (hfilled hn) hk hr type

namespace Notebook

/-- A note with a tag. -/
def tagged (id tag : String) : Object := ⟨"N", [("id", .text id), ("tag", .text tag)]⟩

/-- Three notes get the tag x, but the second one another one later. -/
def tagging : List Request :=
  [.put (tagged "1" "x"), .put (tagged "2" "x"), .put (tagged "3" "x"), .put (tagged "2" "y")]

/-- The notes with the tag x. -/
def havingX : Query := { allOf := [("tag", .text "x")] }

theorem proper_tagging : ∀ q ∈ tagging, q.Proper := by
  intro q hq keyspace hk
  simp only [tagging, List.mem_cons, List.not_mem_nil, or_false] at hq
  rcases hq with rfl | rfl | rfl | rfl <;> cases hk

end Notebook

open Notebook in
/-- The tag of a note that was stored twice is its last one. -/
theorem find_selected_tagged :
    ∃ ids : List String, "1" ∈ ids ∧ "2" ∉ ids ∧ (empty.run [] tagging).1.find "N" "N" havingX =
      (·.filterMap id) <$> ids.mapM fun id => (empty.run [] tagging).1.get id "N" "N" := by
  obtain ⟨ids, -, hids, hfind, -⟩ := find_selected built rfl proper_tagging
    (Prod.mk.eta (p := empty.run [] tagging)).symm (show isKeyspace "N" = true by decide) havingX
    (by decide)
  have hfirst : ((empty.run [] tagging).2.get? "N" "1").map havingX.selects = some true := by
    decide +kernel
  have hsecond : ((empty.run [] tagging).2.get? "N" "2").map havingX.selects = some false := by
    decide +kernel
  refine ⟨ids, (hids "1").2 (Option.map_eq_some_iff.1 hfirst), fun h => ?_, hfind "N"⟩
  obtain ⟨record, hr, hq⟩ := (hids "2").1 h
  rw [hr, Option.map_some, hq] at hsecond
  cases hsecond

open Notebook in
example : (empty.run [] tagging).1.find "N" "N" havingX = .ok [tagged "1" "x", tagged "3" "x"] := by
  decide +kernel

end FlatGraph
