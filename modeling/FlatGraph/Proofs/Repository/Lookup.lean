import FlatGraph.Proofs.Repository.Find
import FlatGraph.Proofs.Scalar.Recode

/-!
# Finding entities by their own values

**An entity that was stored is found by each of its values for which there is an index, as long as
the value has the text under which it is stored** (`found_by_own_value`). This holds of the values
of every type but single precision: there the text that is stored is that of the rounded number,
and the text of a query is that of the number as it is (`toText_eq_iff`).

The index definitions of a configuration stay in force during a run (`contains_indexes_run`), so
that the record of the entity has a fragment for the value (`mem_fragments_of_prepare`). An entity
that was saved is in the index sets of its fragments (`mem_having_of_save`), whatever the store
held before.
-/

namespace FlatGraph

open EntityType (isKeyspace)
open Number (Floating binary32)
open Repository (Entity)

/-! ## Texts of values -/

namespace Value

/-- The number that is stored for a value in single precision, if there is one. -/
def single? : Value → Option (Floating binary32)
  | .float x => ScalarType.narrow? x
  | .integer n => ScalarType.narrow? (.ofInt n.toInt)
  | _ => none

/-- In single precision the value has the same text. -/
def KeepsText (v : Value) : Prop := ∀ x ∈ v.single?, v.toText = .ok (.ofList x.text)

end Value

namespace ScalarType

variable {type : ScalarType} {v : Value} {bs : Bytes} {text : String}

/-- A value that was not rounded is stored under its own text. -/
theorem toText_of_encodeScalar (ht : type ≠ .float32) (h : type.encodeScalar v = .ok bs) :
    v.toText = .ok (Utf8.lossy bs) := by
  cases type with
  | float32 => exact absurd rfl ht
  | bytes =>
    cases v with
    | bytes bs' => cases h; rfl
    | text s => cases h; exact congrArg Except.ok (Utf8.lossy_encode s).symm
    | _ => cases h
  | int width =>
    cases v with
    | integer n =>
      simp only [encodeScalar] at h
      split at h <;> cases h
      exact congrArg Except.ok (Utf8.lossy_encode _).symm
    | _ => cases h
  | enum e =>
    cases v with
    | enum variant | text variant =>
      simp only [encodeScalar] at h
      split at h <;> cases h
      exact congrArg Except.ok (Utf8.lossy_encode _).symm
    | _ => cases h
  | _ =>
    cases v <;> cases h <;> exact congrArg Except.ok (Utf8.lossy_encode _).symm

theorem exists_single_of_encodeScalar (h : ScalarType.float32.encodeScalar v = .ok bs) :
    ∃ x, v.single? = some x ∧ bs = Utf8.encode (.ofList x.text) := by
  cases v with
  | float x =>
    simp only [encodeScalar] at h
    split at h
    · next y hy => exact ⟨y, hy, (Except.ok.inj h).symm⟩
    · cases h
  | integer n =>
    simp only [encodeScalar] at h
    split at h
    · next y hy => exact ⟨y, hy, (Except.ok.inj h).symm⟩
    · cases h
  | _ => cases h

/-- **A value is stored under its own text, unless it is rounded to a number with another one.** -/
theorem toText_eq_iff (hv : v.isScalar = true) (h : type.keyText v = .ok text) :
    v.toText = .ok text ↔ (type = .float32 → v.KeepsText) := by
  obtain ⟨bs, hb, rfl⟩ := (keyText_eq_ok_iff hv).1 h
  by_cases ht : type = .float32
  · subst ht
    obtain ⟨x, hx, rfl⟩ := exists_single_of_encodeScalar hb
    rw [Utf8.lossy_encode]
    constructor
    · intro htext _ y hy
      cases hx.symm.trans hy
      exact htext
    · exact fun hkeep => hkeep rfl x hx
  · exact iff_of_true (toText_of_encodeScalar ht hb) fun h => absurd h ht

end ScalarType

/-- The fragment that a query derives from a value is the one with its text. -/
theorem Query.fragment_eq_iff {name text : String} {v : Value} (hv : v.isScalar = true) :
    Query.fragment (name, v) = .ok (Path.indexFragment name text) ↔ v.toText = .ok text := by
  obtain ⟨s, hs⟩ := Value.exists_toText hv
  rw [Query.fragment, if_pos hv, hs]
  simp [Path.indexFragment]

/-! ## Indexes that stay defined -/

namespace Repository

theorem contains_prepare {repo : Repository} {d : IndexDefinition}
    (h : repo.indexes.contains d = true) (o : Object) :
    (repo.prepare o).repository.indexes.contains d = true := by
  have hp := repo.preparing o
  generalize repo.prepare o = p at hp ⊢
  cases hp with
  | unwritten | named | unnamed => exact contains_write h o
  | @identified _ o' _ _ _ hi =>
    obtain ⟨t, p, -, -, -, rfl⟩ := exists_of_identify hi
    exact contains_write (contains_write h o) o'

/-- No request takes an index definition back. -/
theorem contains_serve {repo : Repository} {d : IndexDefinition}
    (h : repo.indexes.contains d = true) (q : Request) :
    (repo.serve q).2.indexes.contains d = true := by
  obtain ⟨s, hs⟩ := repo.exists_store_serve q
  rw [hs]
  cases q with
  | put o => exact contains_prepare h o
  | _ => exact h

theorem contains_indexes_run {repo : Repository} {m : Catalog} {d : IndexDefinition}
    (h : repo.indexes.contains d = true) (qs : List Request) :
    (repo.run m qs).1.indexes.contains d = true :=
  run_preserves (P := fun repo _ => repo.indexes.contains d = true)
    (fun _ _ q _ h => contains_serve h q) h

theorem registry_run {repo : Repository} {m : Catalog} (hb : repo.registry.Built)
    (qs : List Request) : (repo.run m qs).1.registry = repo.registry :=
  run_preserves (P := fun repo' _ => repo'.registry = repo.registry)
    (fun repo' _ q _ h => (repo'.registry_serve (h ▸ hb) q).trans h) rfl

end Repository

/-! ## Index sets of what is stored -/

namespace Repository

/-- What was stored has been saved as it was prepared. -/
theorem exists_save_of_put {repo : Repository} {o : Object} {id : String}
    (h : (repo.put o).id = .ok id) :
    ∃ e, (repo.prepare o).entity = .ok e ∧ e.id = id ∧
      (repo.prepare o).repository.save e = (.ok (), (repo.put o).repository) := by
  unfold put at h ⊢
  dsimp only at h ⊢
  split at h
  · cases h
  · next e he =>
    rw [he]
    dsimp only at h ⊢
    obtain ⟨_, hsave, hid⟩ := Outcome.map_eq_ok_iff.1 h
    exact ⟨e, rfl, hid, Prod.ext hsave rfl⟩

/-- To store an entity, it is added to the index sets of its fragments in the end. -/
theorem exists_of_replacement {s : Store} {e : Entity} {changes : List Change}
    (h : replacement s e = .ok changes) :
    ∃ first, changes = first ++
      (e.record.indexKeys.map Utf8.encode).map (.addMember · (Utf8.encode e.id)) := by
  rw [List.map_map]
  obtain ⟨isThere, -, h⟩ := Outcome.bind_eq_ok_iff.1 h
  cases isThere with
  | true =>
    obtain ⟨keys, -, h⟩ := Outcome.bind_eq_ok_iff.1 h
    cases h
    exact ⟨_, rfl⟩
  | false =>
    cases h
    exact ⟨_, rfl⟩

/-- An entity that was saved is in the index sets of its fragments. -/
theorem mem_having_of_save {repo repo' : Repository} {e : Entity}
    (hk : e.record.keyspace = some e.keyspace) (h : repo.save e = (.ok (), repo'))
    {f : String} (hf : f ∈ e.record.fragments) :
    ∃ ids, repo'.having e.keyspace f = .ok ids ∧ Utf8.encode e.id ∈ ids := by
  unfold save at h
  split at h
  · cases h
  · next changes hchanges =>
    obtain ⟨first, rfl⟩ := exists_of_replacement hchanges
    obtain ⟨hresult, rfl⟩ := Prod.mk.inj h
    obtain ⟨s, -, hs⟩ := Store.changeAll_append_eq_ok_iff.1
      (Prod.ext (Outcome.mapError_eq_ok_iff.1 hresult) rfl)
    have hkey : indexKey e.keyspace f ∈ e.record.indexKeys.map Utf8.encode := by
      rw [Record.indexKeys, hk, List.map_map]
      exact List.mem_map_of_mem hf
    obtain ⟨ids, hids, hid⟩ := Store.hasMember_of_changeAll hs (.inl hkey)
    exact ⟨ids, Outcome.mapError_eq_ok_iff.2 hids, hid⟩

/-- A query with one criterion selects the members of an index set. -/
theorem select_single {repo : Repository} {keyspace name f : String} {v : Value}
    (h : Query.fragment (name, v) = .ok f) :
    repo.select keyspace { allOf := [(name, v)] } = repo.having keyspace f := by
  have hfragments : Query.fragments { allOf := [(name, v)] } = .ok ([f], []) := by
    simp only [Query.fragments, List.mapM_cons, List.mapM_nil, h]
    rfl
  rw [select, hfragments]
  show ([f].mapM (repo.having keyspace) >>= fun sets => _) = _
  rw [List.mapM_cons]
  cases repo.having keyspace f with
  | error e => rfl
  | ok ids => exact congrArg Except.ok (List.filter_true ids)

end Repository

/-! ## Values that are found -/

section

variable {repo : Repository} {m : Catalog} {o : Object} {t : EntityType} {p : Property}
  {type : ScalarType} {v : Value} {text : String}

/-- The text by which a value may be found is its own, unless it is rounded. -/
theorem Property.toText_of_indexedText (hv : v.isNull = false)
    (htext : p.indexedText type v = .ok text)
    (hkeep : p.isId = false → type = .float32 → v.KeepsText) : v.toText = .ok text := by
  unfold Property.indexedText at htext
  split_ifs at htext with hid
  · exact htext
  · obtain ⟨bs, hb, -⟩ := Outcome.map_eq_ok_iff.1 htext
    have hscalar := ScalarType.isScalar_of_encode hv hb
    exact (ScalarType.toText_eq_iff hscalar htext).2 (hkeep (by simpa using hid))

/-- What is stored for an object has the fragment with the text of its value. -/
theorem Repository.mem_fragments_of_prepare {e : Entity} (he : (repo.prepare o).entity = .ok e)
    (ht : repo.registry.find? o.type = some t) (hp : p ∈ t.properties)
    (hs : p.shape = .single (.scalar type)) (hv : o.get? p.name = some v)
    (htext : p.indexedText type v = .ok text) (hown : v.toText = .ok text) (hne : text ≠ "")
    (hix : p.isIndexed = true ∨ repo.indexes.contains ⟨t.keyspace, p.name⟩ = true) :
    e.record.keyspace = some e.keyspace ∧ e.keyspace = t.keyspace ∧
      Path.indexFragment p.name text ∈ e.record.fragments := by
  obtain ⟨o', ix, hw, hk, hmono, ho⟩ := Repository.exists_written_of_prepare he
  have ho' : o'.type = o.type ∧ o'.get? p.name = some v := by
    rcases ho with rfl | ⟨record, t', q, s, hfirst, hid, ht', hq, rfl⟩
    · exact ⟨rfl, hv⟩
    -- The value of the property that holds the id has no text, as the first record has no id.
    · cases ht.symm.trans ht'
      refine ⟨rfl, ?_⟩
      have hname : p.name ≠ q.name := fun hname => by
        rw [hname] at hv
        exact Registry.id_ne_none_of_write hfirst ht (List.mem_of_find?_eq_some hq)
          (by simpa using List.find?_some hq) hv hown hne hid
      rw [Object.get?, Object.set, Fields.get?_set _ rfl, if_neg hname]
      exact hv
  have ht' : repo.registry.find? o'.type = some t := ho'.1 ▸ ht
  refine ⟨hk, ?_, ?_⟩
  · obtain ⟨t', hfind, hkeyspace⟩ := Registry.keyspace_of_write hw
    cases ht'.symm.trans hfind
    exact Option.some.inj (hk.symm.trans hkeyspace)
  · exact Registry.mem_fragments_of_write hw ht' hp hs ho'.2 htext hne (hix.imp_right (hmono _))

end

/-- **After any run, an entity that is stored is found by its own value** of a property for which
there is an index, unless it is a number in single precision that has another text there: of all
values of all types these alone are stored under another text than a query for them has. -/
theorem found_by_own_value {repo after : Repository} {m m' : Catalog} {qs : List Request}
    (hb : repo.registry.Built) (hrun : repo.run m qs = (after, m')) {o : Object} {t : EntityType}
    (ht : repo.registry.find? o.type = some t) {p : Property} (hp : p ∈ t.properties)
    {type : ScalarType} (hshape : p.shape = .single (.scalar type))
    (hix : p.isIndexed = true ∨ repo.indexes.contains ⟨t.keyspace, p.name⟩ = true) {v : Value}
    (hv : o.get? p.name = some v) {text : String} (htext : p.indexedText type v = .ok text)
    (hne : text ≠ "") (hkeep : p.isId = false → type = .float32 → v.KeepsText) {id : String}
    (hput : (after.put o).id = .ok id) :
    (∃ ids, (after.put o).repository.select t.keyspace { allOf := [(p.name, v)] } = .ok ids ∧
        Utf8.encode id ∈ ids) ∧
      ∀ (type : ScalarType) (v : Value) (bs : Bytes) (name : String), v.isScalar = true →
        type.encode v = .ok bs →
        (Query.fragment (name, v) = .ok (Path.indexFragment name (Utf8.lossy bs)) ↔
          (type = .float32 → v.KeepsText)) := by
  constructor
  · obtain rfl : (repo.run m qs).1 = after := congrArg Prod.fst hrun
    have hregistry := Repository.registry_run (m := m) hb qs
    have hindexes := hix.imp_right fun h => Repository.contains_indexes_run (m := m) h qs
    have hown := Property.toText_of_indexedText (Fields.isNull_of_get? hv) htext hkeep
    obtain ⟨e, hprepare, rfl, hsave⟩ := Repository.exists_save_of_put hput
    obtain ⟨hk, hkeyspace, hf⟩ := Repository.mem_fragments_of_prepare hprepare (hregistry ▸ ht) hp
      hshape hv htext hown hne hindexes
    have hscalar := Value.isScalar_of_toText (Fields.isNull_of_get? hv) hown
    rw [Repository.select_single (f := Path.indexFragment p.name text)
      ((Query.fragment_eq_iff hscalar).2 hown), ← hkeyspace]
    exact Repository.mem_having_of_save hk hsave hf
  · intro type v bs name hscalar henc
    rw [Query.fragment_eq_iff hscalar]
    exact ScalarType.toText_eq_iff hscalar (Outcome.map_eq_ok_iff.2 ⟨bs, henc, rfl⟩)

namespace Scales

/-- The weight that a scale shows, by which it may be found. -/
def weight : Property :=
  { name := "weight", shape := .single (.scalar .float32), isIndexed := true }

/-- Scales have an id and show a weight. -/
def scale : EntityType :=
  { name := "Scale"
    properties := [{ name := "id", shape := .single (.scalar .text), isId := true }, weight] }

/-- An empty repository of scales. -/
def empty : Repository := { registry := ⟨[("Scale", scale)]⟩, freshId := fun _ => "new" }

theorem built : empty.registry.Built := .register .empty (t := scale) (by rfl)

/-- A half, which single precision keeps. -/
def half : Value := .float (.ofRatio false 1 2)

/-- The double nearest to a third, which single precision rounds. -/
def third : Value := .float (.ofRatio false 1 3)

/-- A scale that shows a weight. -/
def showing (v : Value) : Object := ⟨"Scale", [("id", .text "1"), ("weight", v)]⟩

theorem id_put_half : (empty.put (showing half)).id = .ok "1" := by decide +kernel

theorem put_third : (empty.put (showing third)).id = .ok "1" ∧
    (empty.put (showing third)).repository.select "Scale" { allOf := [("weight", third)] } =
      .ok [] := by
  decide +kernel

end Scales

open Scales in
/-- A scale is found by the half that it shows. -/
theorem found_by_own_value_half :
    ∃ ids, (empty.put (showing half)).repository.select "Scale" { allOf := [("weight", half)] } =
      .ok ids ∧ Utf8.encode "1" ∈ ids := by
  have htext : weight.indexedText .float32 half = .ok "0.5" := by decide +kernel
  have hkeep : half.KeepsText := by
    intro x hx
    have hhalf : half.single? = some (.ofRatio false 1 2) := by decide +kernel
    cases hhalf.symm.trans hx
    decide +kernel
  have hput : (empty.put (showing half)).id = .ok "1" := id_put_half
  exact (@found_by_own_value empty empty [] [] [] built rfl (showing half) scale rfl weight
    (by decide) .float32 rfl (.inl rfl) half rfl "0.5" htext (by decide) (fun _ _ => hkeep) "1"
    hput).1

open Scales in
/-- A query for a third asks for another text than the one that is stored. -/
theorem not_found_by_own_value :
    ¬ ∀ (repo after : Repository) (m : Catalog) (qs : List Request), repo.registry.Built →
      repo.store = {} → (∀ q ∈ qs, q.Proper) → repo.run [] qs = (after, m) →
      ∀ (o : Object) (t : EntityType), repo.registry.find? o.type = some t →
        ∀ p ∈ t.properties, ∀ type, p.shape = .single (.scalar type) →
          (p.isIndexed = true ∨ repo.indexes.contains ⟨t.keyspace, p.name⟩ = true) →
          ∀ v, o.get? p.name = some v → ∀ text, p.indexedText type v = .ok text → text ≠ "" →
            ∀ id, (after.put o).id = .ok id →
              ∃ ids, (after.put o).repository.select t.keyspace { allOf := [(p.name, v)] } =
                .ok ids ∧ Utf8.encode id ∈ ids := by
  intro h
  obtain ⟨ids, hselect, hid⟩ := h empty empty [] [] built rfl (fun _ h => nomatch h) rfl
    (showing third) scale rfl weight (by decide) .float32 rfl (.inl rfl) third rfl "0.33333334"
    (by decide +kernel) (by decide) "1" put_third.1
  cases hselect.symm.trans put_third.2
  cases hid

end FlatGraph
