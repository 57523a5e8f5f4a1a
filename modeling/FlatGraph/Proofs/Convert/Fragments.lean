import FlatGraph.Proofs.Convert.Prescribed

/-!
# What the fragments of a record stand for

**Theorem (`fragments_mirrored`).** The index fragments of a record mirror its entries. For each
entry of an id or a single scalar, at whatever depth, there is the fragment of its text, if the
property is marked as indexed or an index was defined for it before. Each fragment is one of these,
and an index is defined for it afterwards.

A walk puts down a scalar and gives its text to be indexed side by side
(`Write.scalar_mem_property`). The record holds what was put down, as nothing else is at the path of
a scalar (`indexedText_of_entry`); so a text that was given is that of the entry there.

Elements of lists and maps have no fragments, and neither has anything in an object that is only
referred to: no address leads to a property there.
-/

namespace FlatGraph

open Traced (Includes)

variable {r : Registry} {o : Object} {ix : Indexes} {record : Record} {t : EntityType}
  {address : List Hop} {path text : String} {p : Property} {v : Value} {bs : Bytes}

/-- The property is the id, or holds one scalar. -/
def Property.IsScalar (p : Property) : Prop := p.isId = true ∨ p.shape.isSingleScalar = true

theorem Property.isScalar_iff :
    p.IsScalar ↔ ∃ type, p.isId = true ∨ p.shape = .single (.scalar type) := by
  constructor
  · rintro (hid | hs)
    · exact ⟨.text, .inl hid⟩
    · cases hshape : p.shape with
      | single type =>
        cases type with
        | scalar type => exact ⟨type, .inr rfl⟩
        | entity name => simp [hshape, Shape.isSingleScalar] at hs
      | list | map => simp [hshape, Shape.isSingleScalar] at hs
  · rintro ⟨type, hid | hs⟩
    · exact .inl hid
    · exact .inr (by rw [hs]; rfl)

/-- The text of a value depends on the declared type only as far as there is one. -/
theorem Property.indexedText_unique {type type' : ScalarType} {text' : String}
    (hs : p.isId = true ∨ p.shape = .single (.scalar type))
    (hs' : p.isId = true ∨ p.shape = .single (.scalar type'))
    (ht : p.indexedText type v = .ok text) (ht' : p.indexedText type' v = .ok text') :
    text = text' := by
  unfold indexedText at ht ht'
  split at ht
  · next hid =>
    rw [if_pos hid] at ht'
    exact Except.ok.inj (ht.symm.trans ht')
  · next hid =>
    cases (hs.resolve_left hid).symm.trans (hs'.resolve_left hid)
    rw [if_neg hid] at ht'
    exact Except.ok.inj (ht.symm.trans ht')

/-! ## Entries of scalars -/

/-- What is put down for a scalar has the text by which the scalar may be found. -/
theorem Site.indexedText_of_prescribes (hp : p.IsScalar) {place : Place} {x : String × Bytes}
    (h : Site.Prescribes r ⟨.property p, path, v⟩ place x) :
    ∃ type, (p.isId = true ∨ p.shape = .single (.scalar type)) ∧
      p.indexedText type v = .ok (Utf8.lossy x.2) := by
  obtain ⟨type, htype⟩ := Property.isScalar_iff.1 hp
  refine ⟨type, htype, ?_⟩
  obtain ⟨address, mark⟩ := place
  obtain ⟨there, hl, hput⟩ := h
  dsimp only at hl hput
  cases hl with
  | here =>
    cases hput with
    | id hid ht => rw [Property.indexedText, if_pos hid, ht, Utf8.lossy_encode]
  | step hpart hrest =>
    cases hpart with
    | single hid hs =>
      cases hs.symm.trans (htype.resolve_left (by simp [hid]))
      cases hrest with
      | here =>
        cases hput with
        | scalar hb =>
          rw [Property.indexedText, if_neg (by simp [hid])]
          exact Outcome.map_eq_ok_iff.2 ⟨_, hb, rfl⟩
      | step hpart => cases hpart
    | item hid hs => cases hs.symm.trans (htype.resolve_left (by simp [hid]))
    | entry hid hs => cases hs.symm.trans (htype.resolve_left (by simp [hid]))

/-- The path of a property is in the region of a property of the root. -/
theorem Registry.within_of_leads (hn : r.Named)
    (hl : o.site.Leads r address ⟨.property p, path, v⟩) :
    ∃ name, Path.IsName name ∧ Path.Within (Path.join "" name) path := by
  cases hl with
  | step hpart hrest =>
    cases hpart with
    | @field _ _ _ _ _ q _ ht hq =>
      have hname := hn.isName _ _ ht _ hq
      have hpath : Path.join "" q.name ≠ "" := Path.join_ne_empty hname.ne_empty
      exact ⟨q.name, hname, hrest.region hn hpath (.self path)⟩

/-- **The entry at the path of a scalar has the text by which the scalar may be found**: nothing
else is put there. -/
theorem Registry.indexedText_of_entry (hn : r.Named) (hk : o.site.KeysDiffer r)
    (h : (r.write ix o).1 = .ok record) (hl : o.site.Leads r address ⟨.property p, path, v⟩)
    (hp : p.IsScalar) (hget : record.entries.get? path = some bs) :
    ∃ type, (p.isId = true ∨ p.shape = .single (.scalar type)) ∧
      p.indexedText type v = .ok (Utf8.lossy bs) := by
  obtain ⟨place, hx⟩ := exists_prescribes_of_write h hget
  cases hx with
  | root =>
    obtain ⟨name, hname, hw⟩ := within_of_leads hn hl
    exact absurd hw (Path.not_within_join_hint hname)
  | site hx =>
    obtain ⟨place', hx⟩ := hx.of_region hn hk hl (.self path)
    exact Site.indexedText_of_prescribes hp hx

/-! ## Steps for scalars -/

/-- The walk over an object includes one over each property in it. -/
theorem Registry.outline_includes (ht : r.find? o.type = some t)
    (hl : o.site.Leads r address ⟨.property p, path, v⟩) :
    ∃ root, Includes (r.outline t o) (Write.property r root path p v) := by
  cases hl with
  | step hpart hrest =>
    cases hpart with
    | @field _ _ _ _ _ q w ht' hq hw =>
      cases ht.symm.trans ht'
      have houter : Includes (r.outline t o)
          (Write.property r true (Path.join "" q.name) q w) :=
        Traced.includes_bind fun _ _ => Write.properties_includes hq hw
      cases hrest with
      | here => exact ⟨true, houter⟩
      | @step _ s _ _ _ hpart' hrest' =>
        -- only an id is written differently for the root, and nothing is in an id
        have hid : q.isId = false := by cases hpart' <;> assumption
        have hroot : Write.property r true (Path.join "" q.name) q w =
            Write.property r false (Path.join "" q.name) q w := by
          rw [Write.property, Write.property, if_neg (by simp [hid]), if_neg (by simp [hid])]
        rw [hroot] at houter
        exact ⟨false, houter.trans (hpart'.includes.trans hrest'.includes)⟩

/-- Where the text of a scalar is not empty, there is a value. -/
theorem Property.isNull_of_indexedText {type : ScalarType} (ht : p.indexedText type v = .ok text)
    (hne : text ≠ "") : v.isNull = false := by
  cases v with
  | null =>
    refine absurd ?_ hne
    unfold indexedText at ht
    split at ht
    · exact (Except.ok.inj ht).symm
    · exact (Except.ok.inj ht).symm.trans (Utf8.lossy_eq_empty_iff.2 rfl)
  | _ => rfl

/-- The walk over an object that was written gives the text of each scalar in it that has one, and
puts down an entry with this text. -/
theorem Registry.scalar_mem_outline (h : (r.write ix o).1 = .ok record)
    (ht : r.find? o.type = some t) (hl : o.site.Leads r address ⟨.property p, path, v⟩)
    {type : ScalarType} (hs : p.isId = true ∨ p.shape = .single (.scalar type))
    (htext : p.indexedText type v = .ok text) (hne : text ≠ "") :
    .index p.name p.isIndexed text ∈ (r.outline t o).trace ∧
      ∃ bs, Utf8.lossy bs = text ∧ .entry path bs ∈ (r.outline t o).trace := by
  obtain ⟨root, hincludes⟩ := outline_includes ht hl
  obtain ⟨⟨⟨⟩, hvalue⟩, hsub⟩ := hincludes () (record_of_write h ht).1
  obtain ⟨hindex, bs, hbs, hentry⟩ := Write.scalar_mem_property hs
    (Property.isNull_of_indexedText htext hne) htext hvalue
  exact ⟨hsub hindex, bs, hbs, hsub hentry⟩

/-- A step of the walk over an object to index a value is for a scalar in the object. -/
theorem Registry.exists_scalar_of_index {name : String} {always : Bool}
    (ht : r.find? o.type = some t) (h : .index name always text ∈ (r.outline t o).trace) :
    ∃ address path p v type, o.site.Leads r address ⟨.property p, path, v⟩ ∧ p.name = name ∧
      p.isIndexed = always ∧ (p.isId = true ∨ p.shape = .single (.scalar type)) ∧
      p.indexedText type v = .ok text := by
  obtain ⟨p, hp, v, hv, hgives⟩ := r.mem_outline (s := .index name always text) id h
  have hfield : Site.Part r o.site [.field p.name] ⟨.property p, Path.join "" p.name, v⟩ :=
    .field ht hp hv
  obtain hgives | ⟨address, q, path, w, hl, hgives⟩ := hgives
  · cases hgives with
    | index hs htext => exact ⟨_, _, p, v, _, .step hfield (.here _), rfl, rfl, hs, htext⟩
  · cases hgives with
    | index hs htext => exact ⟨_, path, q, w, _, .step hfield hl, rfl, rfl, hs, htext⟩

/-! ## Fragments -/

/-- The record of an object has an entry for what its walk puts down at the path of a property. -/
theorem Registry.exists_entry (hn : r.Named) (h : (r.write ix o).1 = .ok record)
    (ht : r.find? o.type = some t) (hl : o.site.Leads r address ⟨.property p, path, v⟩)
    (hmem : .entry path bs ∈ (r.outline t o).trace) (hne : bs ≠ []) :
    ∃ bs', record.entries.get? path = some bs' := by
  have hpair : (path, bs) ∈ Step.pairs (r.outline t o).trace :=
    List.mem_filterMap.2 ⟨_, hmem, rfl⟩
  obtain ⟨name, hname, hw⟩ := within_of_leads hn hl
  have hpath : path ≠ "" := Path.ne_empty_of_within (Path.join_ne_empty hname.ne_empty) hw
  rw [(record_of_write h ht).2, Step.entries_foldl_apply]
  exact Option.ne_none_iff_exists'.1 (Entries.lastOf_ne_none_of_mem hpair hpath hne)

/-- **The index fragments of a record mirror its entries.** -/
theorem Registry.fragments_mirrored (hn : r.Named) (hk : o.site.KeysDiffer r)
    (h : (r.write ix o).1 = .ok record) :
    ∃ t, r.find? o.type = some t ∧ record.keyspace = some t.keyspace ∧
      (∀ address path p v bs, o.site.Leads r address ⟨.property p, path, v⟩ → p.IsScalar →
        record.entries.get? path = some bs →
        (p.isIndexed = true ∨ ix.contains ⟨t.keyspace, p.name⟩ = true) →
        Path.indexFragment p.name (Utf8.lossy bs) ∈ record.fragments) ∧
      ∀ f ∈ record.fragments, ∃ address path p v bs,
        o.site.Leads r address ⟨.property p, path, v⟩ ∧ p.IsScalar ∧
        record.entries.get? path = some bs ∧ f = Path.indexFragment p.name (Utf8.lossy bs) ∧
        (r.write ix o).2.contains ⟨t.keyspace, p.name⟩ = true := by
  obtain ⟨t, ht, hkeyspace⟩ := keyspace_of_write h
  obtain ⟨-, hrecord⟩ := record_of_write h ht
  refine ⟨t, ht, hkeyspace, ?_, ?_⟩
  · intro address path p v bs hl hp hget hix
    obtain ⟨type, hs, htext⟩ := indexedText_of_entry hn hk h hl hp hget
    have hne : Utf8.lossy bs ≠ "" := mt Utf8.lossy_eq_empty_iff.1 (Entries.ne_empty_of_get? hget).2
    obtain ⟨before, after, heq⟩ := List.append_of_mem (scalar_mem_outline h ht hl hs htext hne).1
    rw [hrecord, Step.mem_fragments_foldl_apply_iff]
    exact .inr ⟨before, p.name, p.isIndexed, _, after, heq, hne, rfl, hix.symm.imp_right .inl⟩
  · intro f hf
    rw [hrecord, Step.mem_fragments_foldl_apply_iff] at hf
    obtain ⟨before, name, always, text, after, heq, hne, rfl, hix⟩ :=
      hf.resolve_left List.not_mem_nil
    have hmem : .index name always text ∈ (r.outline t o).trace := by
      rw [heq]
      exact List.mem_append_right _ List.mem_cons_self
    obtain ⟨address, path, p, v, type, hl, rfl, rfl, hs, htext⟩ := exists_scalar_of_index ht hmem
    obtain ⟨-, bs, hbs, hentry⟩ := scalar_mem_outline h ht hl hs htext hne
    have hfilled : bs ≠ [] := fun h0 => hne (by rw [← hbs, h0, Utf8.lossy_eq_empty_iff])
    obtain ⟨bs', hget⟩ := exists_entry hn h ht hl hentry hfilled
    have hp : p.IsScalar := Property.isScalar_iff.2 ⟨type, hs⟩
    obtain ⟨type', hs', htext'⟩ := indexedText_of_entry hn hk h hl hp hget
    refine ⟨address, path, p, v, bs', hl, hp, hget, ?_, ?_⟩
    · rw [Property.indexedText_unique hs hs' htext htext']
    · rw [contains_write_iff]
      refine hix.imp_right fun hix => ?_
      obtain hmark | ⟨text', hm⟩ := hix
      · exact ⟨text, t, ht, rfl, hmark ▸ hmem⟩
      · exact ⟨text', t, ht, rfl, by rw [heq]; exact List.mem_append_left _ hm⟩

/-! ## Hotels -/

namespace Hotels

/-- The name of a hotel. -/
def name : Property := { name := "name", shape := .single (.scalar .text), isId := true }

/-- The rooms of a hotel. -/
def rooms : Property := { name := "rooms", shape := .list (.entity "Room") }

/-- The hotel next door. -/
def next : Property := { name := "next", shape := .single (.entity "Hotel"), isReference := true }

/-- The number of beds in a room. -/
def beds : Property := { name := "beds", shape := .single (.scalar (.int .w8)), isIndexed := true }

/-- What can be seen from a room. -/
def view : Property := { name := "view", shape := .single (.scalar .text) }

def hotel : EntityType := { name := "Hotel", properties := [name, rooms, next] }

def room : EntityType := { name := "Room", properties := [beds, view] }

/-- The registry of hotels. -/
def hotels : Registry := ⟨[("Hotel", hotel), ("Room", room)]⟩

/-- An index on the views of hotels. -/
def views : Indexes := .ofList [⟨"Hotel", "view"⟩]

/-- A hotel with a room, next to another one. -/
def astoria : Object where
  type := "Hotel"
  fields := [("name", .text "Astoria"),
    ("rooms", .list [.object "Room" [("beds", .integer 2), ("view", .text "sea")]]),
    ("next", .object "Hotel" [("name", .text "Ritz")])]

theorem named_hotels : hotels.Named := .of_types (by decide)

/-- There are no maps in a hotel. -/
theorem keysDiffer_astoria : astoria.site.KeysDiffer hotels := by
  intro address path p key type entries hl hs
  obtain ⟨s, t, ht, hp⟩ := registered_of_occurs (hl.occurs rfl)
  have hshapes : ∀ e ∈ hotels.types, ∀ p ∈ e.2.properties, ∀ key type, p.shape ≠ .map key type := by
    simp [hotels, hotel, room, name, rooms, next, beds, view]
  exact absurd hs (hshapes _ (Registry.mem_types_of_find? ht) p hp key type)

/-- The walk over the hotel. -/
def walk : Walk Unit where
  trace := [.entry Path.hint (Utf8.encode "Hotel"), .identify "Astoria",
    .entry "name" (Utf8.encode "Astoria"), .index "name" false "Astoria",
    .entry "rooms.[0].beds" (Utf8.encode "2"), .index "beds" true "2",
    .entry "rooms.[0].view" (Utf8.encode "sea"), .index "view" false "sea",
    .entry "next" (Utf8.encode "Hotel:Ritz")]
  outcome := .ok ()

/-- The record of the hotel. -/
def guide : Record :=
  (walk.trace.foldl (Step.apply "Hotel") ({ keyspace := some "Hotel" }, views)).1

theorem write_astoria : (hotels.write views astoria).1 = .ok guide := by decide +kernel

theorem leads_view : astoria.site.Leads hotels
    ([.field "rooms"] ++ ([.item 0] ++ ([.field "view"] ++ [])))
    ⟨.property view, "rooms.[0].view", .text "sea"⟩ :=
  .step (.field (t := hotel) (p := rooms) rfl (by decide) rfl)
    (.step (.item rfl rfl rfl)
      (.step (.field (t := room) (p := view) rfl (by decide) rfl) (.here _)))

/-- The room is found by its beds and by its view, for which an index was defined before. The other
hotel is only referred to, and gives no fragment. -/
theorem fragments_mirrored_astoria : hotels.Named ∧ astoria.site.KeysDiffer hotels ∧
    (hotels.write views astoria).1 = .ok guide ∧ guide.fragments = ["beds:2", "view:sea"] ∧
    Path.indexFragment "view" (Utf8.lossy (Utf8.encode "sea")) ∈ guide.fragments ∧
    ∀ f ∈ guide.fragments, ∃ address path p v bs,
      astoria.site.Leads hotels address ⟨.property p, path, v⟩ ∧ p.IsScalar ∧
      guide.entries.get? path = some bs ∧ f = Path.indexFragment p.name (Utf8.lossy bs) ∧
      (hotels.write views astoria).2.contains ⟨"Hotel", p.name⟩ = true := by
  obtain ⟨t, ht, -, hcomplete, hsound⟩ :=
    Registry.fragments_mirrored named_hotels keysDiffer_astoria write_astoria
  cases ht
  have hget : guide.entries.get? "rooms.[0].view" = some (Utf8.encode "sea") := by
    decide +kernel
  refine ⟨named_hotels, keysDiffer_astoria, write_astoria, by decide +kernel, ?_, hsound⟩
  exact hcomplete _ _ view _ _ leads_view (.inr rfl) hget (.inr (by decide))

end Hotels

end FlatGraph
