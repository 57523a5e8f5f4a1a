import FlatGraph.Proofs.Convert.Index
import FlatGraph.Proofs.Convert.Sites

/-!
# What a walk meets

Besides entries, a walk gives steps for values to be indexed and for the id of the root. Each of
them is given by the value of a property (`Write.Gives`), in the object itself or in one that is
written inside, at any depth (`Registry.mem_outline`). This is so for a walk that fails, too.

One step of the way down is `Site.gives_or_part`: what a walk over a site gives is given by the
value there, or in a walk over a site in it.

* `exists_leads_of_occurs`: the parts of what is written have sites there.
* `Registry.Meets.exists_holder`: a value to be indexed is that of a property of this name.
-/

namespace FlatGraph

variable {r : Registry} {name text : String} {always : Bool} {s : Step}

/-- The step puts down an entry. -/
def Step.IsEntry : Step → Prop
  | .entry .. => True
  | _ => False

namespace Write

variable {root reference : Bool} {base path : String} {type : TypeRef} {v : Value}

/-! ## Walks -/

theorem isEntry_of_mem_mark {key : String} {value : Bytes}
    (h : s ∈ (Traced.mark (.entry key value) : Walk Unit).trace) : s.IsEntry := by
  cases List.mem_singleton.1 h
  trivial

/-- In a walk over an element, only an object that is written inside gives more than entries. -/
theorem mem_element (hs : ¬ s.IsEntry) (h : s ∈ (element r path type reference v).trace) :
    reference = false ∧ ∃ declared runtime fields t, type = .entity declared ∧
      v = .object runtime fields ∧ r.find? runtime = some t ∧
      s ∈ (properties r false path fields t.properties).trace := by
  rw [element.eq_def] at h
  split at h
  · cases h
  · obtain h | ⟨bs, -, h⟩ := Traced.mem_trace_bind_iff.1 h
    · cases h
    · exact absurd (isEntry_of_mem_mark h) hs
  · split at h
    · obtain h | ⟨bs, -, h⟩ := Traced.mem_trace_bind_iff.1 h
      · cases h
      · exact absurd (isEntry_of_mem_mark h) hs
    · next hr =>
      obtain h | ⟨t, ht, h⟩ := Traced.mem_trace_bind_iff.1 h
      · cases h
      refine ⟨by simpa using hr, _, _, _, t, rfl, rfl, Registry.get_eq_ok_iff.1 ht, ?_⟩
      dsimp only at h
      split at h
      · split at h
        · obtain h | ⟨⟨⟩, -, h⟩ := Traced.mem_trace_bind_iff.1 h
          · exact absurd (isEntry_of_mem_mark h) hs
          · exact h
        · cases h
      · exact h
  · cases h

theorem mem_elements {index : Nat} {vs : List Value}
    (h : s ∈ (elements r base type reference index vs).trace) :
    ∃ i v, vs[i]? = some v ∧
      s ∈ (element r (Path.element base (indexText (index + i))) type reference v).trace := by
  induction vs generalizing index with
  | nil =>
    rw [elements] at h
    cases h
  | cons v vs ih =>
    rw [elements] at h
    obtain h | ⟨⟨⟩, -, h⟩ := Traced.mem_trace_bind_iff.1 h
    · exact ⟨0, v, rfl, h⟩
    · obtain ⟨i, w, hw, hmem⟩ := ih h
      rw [Nat.add_right_comm, Nat.add_assoc] at hmem
      exact ⟨i + 1, w, hw, hmem⟩

theorem mem_mapEntries {key : ScalarType} {es : List (Value × Value)}
    (h : s ∈ (mapEntries r base key type reference es).trace) :
    ∃ e ∈ es, ∃ text, key.keyText e.1 = .ok text ∧
      s ∈ (element r (Path.element base text) type reference e.2).trace := by
  induction es with
  | nil =>
    rw [mapEntries] at h
    cases h
  | cons e es ih =>
    rw [mapEntries] at h
    obtain h | ⟨bs, hb, h⟩ := Traced.mem_trace_bind_iff.1 h
    · cases h
    obtain h | ⟨⟨⟩, -, h⟩ := Traced.mem_trace_bind_iff.1 h
    · have ht : key.keyText e.1 = .ok (Utf8.lossy bs) :=
        Outcome.map_eq_ok_iff.2 ⟨bs, encode_eq_ok_iff.1 hb, rfl⟩
      exact ⟨e, List.mem_cons_self, _, ht, h⟩
    · obtain ⟨e', he', hmem⟩ := ih h
      exact ⟨e', List.mem_cons_of_mem _ he', hmem⟩

theorem mem_properties {fields : List (String × Value)} {ps : List Property}
    (h : s ∈ (properties r root base fields ps).trace) :
    ∃ p ∈ ps, ∃ v, Fields.get? fields p.name = some v ∧
      s ∈ (property r root (Path.join base p.name) p v).trace := by
  induction ps with
  | nil =>
    rw [properties_nil] at h
    cases h
  | cons p ps ih =>
    have hrest : s ∈ (properties r root base fields ps).trace →
        ∃ q ∈ p :: ps, ∃ v, Fields.get? fields q.name = some v ∧
          s ∈ (property r root (Path.join base q.name) q v).trace := fun h => by
      obtain ⟨q, hq, hmem⟩ := ih h
      exact ⟨q, List.mem_cons_of_mem _ hq, hmem⟩
    cases hv : Fields.get? fields p.name with
    | none =>
      rw [properties_cons_of_none hv] at h
      exact hrest h
    | some v =>
      rw [properties_cons_of_some hv] at h
      obtain h | ⟨⟨⟩, -, h⟩ := Traced.mem_trace_bind_iff.1 h
      · exact ⟨p, List.mem_cons_self, v, hv, h⟩
      · exact hrest h

/-! ## Properties -/

/-- The steps that the value of a property gives itself, besides its entry: it may be indexed, and
the id of the root identifies it. -/
inductive Gives (root : Bool) (p : Property) (v : Value) : Step → Prop
  | index {type : ScalarType} {text : String}
      (hs : p.isId = true ∨ p.shape = .single (.scalar type))
      (ht : p.indexedText type v = .ok text) : Gives root p v (.index p.name p.isIndexed text)
  | identify {id : String} (hroot : root = true) (hid : p.isId = true) (ht : v.toText = .ok id)
      (hne : id ≠ "") : Gives root p v (.identify id)

theorem mem_property_id {p : Property} (hid : p.isId = true) (hs : ¬ s.IsEntry)
    (h : s ∈ (property r root path p v).trace) : Gives root p v s := by
  cases hi : idText path v with
  | error e =>
    rw [property, if_pos hid, hi] at h
    cases h
  | ok id =>
    obtain ⟨hv, ht⟩ := idText_eq_ok_iff.1 hi
    rw [property_of_isId hid hv ht, List.mem_append] at h
    obtain h | h := h
    · split at h
      · next hne =>
        rw [Bool.and_eq_true, bne_iff_ne] at hne
        cases List.mem_singleton.1 h
        exact .identify hne.1 hid ht hne.2
      · cases h
    · simp only [List.mem_cons, List.not_mem_nil, or_false] at h
      obtain rfl | rfl := h
      · exact absurd trivial hs
      · have htext : p.indexedText .text v = .ok id := by rw [Property.indexedText, if_pos hid, ht]
        exact .index (.inl hid) htext

/-- What a walk over the value of a property gives is given by that value itself, or in a walk over
a site in it. -/
theorem mem_property {p : Property} (hs : ¬ s.IsEntry)
    (h : s ∈ (property r root path p v).trace) :
    Gives root p v s ∨
      ∃ hops s', Site.Part r ⟨.property p, path, v⟩ hops s' ∧ s ∈ (s'.walk r).trace := by
  by_cases hid : p.isId = true
  · exact .inl (mem_property_id hid hs h)
  rw [property, if_neg hid] at h
  rw [Bool.not_eq_true] at hid
  cases hshape : p.shape with
  | single type =>
    rw [hshape] at h
    obtain h | ⟨⟨⟩, -, h⟩ := Traced.mem_trace_bind_iff.1 h
    · exact .inr ⟨_, _, .single hid hshape, h⟩
    · cases type with
      | entity declared => cases h
      | scalar type =>
        obtain h | ⟨bs, hb, h⟩ := Traced.mem_trace_bind_iff.1 h
        · cases h
        · cases List.mem_singleton.1 h
          refine .inl (.index (.inr hshape) ?_)
          rw [Property.indexedText, if_neg (by simp [hid])]
          exact Outcome.map_eq_ok_iff.2 ⟨bs, encode_eq_ok_iff.1 hb, rfl⟩
  | list type =>
    rw [hshape] at h
    dsimp only at h
    split at h
    · obtain ⟨i, v, hv, h⟩ := mem_elements h
      rw [Nat.zero_add] at h
      exact .inr ⟨_, _, .item hid hshape hv, h⟩
    · cases h
  | map key type =>
    rw [hshape] at h
    dsimp only at h
    split at h
    · obtain ⟨e, he, text, ht, h⟩ := mem_mapEntries h
      obtain ⟨i, hi⟩ := List.mem_iff_getElem?.1 he
      exact .inr ⟨_, _, .entry hid hshape hi ht, h⟩
    · cases h

end Write

/-! ## Sites -/

namespace Site

/-- One step down: what a walk over a site gives is given by the value there, or in a walk over a
site in it. -/
theorem gives_or_part {site : Site} (hs : ¬ s.IsEntry) (h : s ∈ (site.walk r).trace) :
    (∃ p, site.slot = .property p ∧ Write.Gives false p site.value s) ∨
      ∃ hops site', Part r site hops site' ∧ s ∈ (site'.walk r).trace := by
  obtain ⟨p | ⟨type, reference⟩, path, v⟩ := site
  · exact (Write.mem_property hs h).imp_left fun h => ⟨p, rfl, h⟩
  · obtain ⟨rfl, declared, runtime, fields, t, rfl, rfl, ht, h⟩ := Write.mem_element hs h
    obtain ⟨p, hp, v, hv, h⟩ := Write.mem_properties h
    exact .inr ⟨_, _, .field ht hp hv, h⟩

/-- **What a walk over a site gives is given by the value of a property**, there or in the site. -/
theorem exists_gives (site : Site) (hs : ¬ s.IsEntry) (h : s ∈ (site.walk r).trace) :
    ∃ address p path v, site.Leads r address ⟨.property p, path, v⟩ ∧ Write.Gives false p v s := by
  obtain ⟨p, hp, hgives⟩ | ⟨hops, site', hpart, h'⟩ := gives_or_part hs h
  · obtain ⟨slot, path, v⟩ := site
    cases hp
    exact ⟨[], p, path, v, .here _, hgives⟩
  · obtain ⟨address, p, path, v, hl, hgives⟩ := exists_gives site' hs h'
    exact ⟨_, p, path, v, .step hpart hl, hgives⟩
termination_by site.size
decreasing_by exact hpart.size_lt

/-- A value in its role, where it stands. -/
def role (site : Site) : Role × Value :=
  match site.slot with
  | .property p => (.property p, site.value)
  | .element type _ => (.element type, site.value)

/-- The value of a property to which an address leads occurs where the address begins: nothing on
the way is only referred to. -/
theorem Leads.occurs {site there : Site} {address : List Hop} {p : Property}
    (h : site.Leads r address there) (hp : there.slot = .property p) :
    Occurs r there.role site.role := by
  induction h with
  | here => exact .refl
  | @step s s' _ hops address hpart hrest ih =>
    refine (ih hp).tail ?_
    -- a site that is only referred to has no site in it, and is none of a property
    have hnested : ∀ type reference, s'.slot = .element type reference → reference = false := by
      intro type reference hslot
      cases hrest with
      | here => cases hslot.symm.trans hp
      | step hpart' _ =>
        cases hpart' <;> cases hslot
        rfl
    cases hpart with
    | field ht hp hv => exact .field ht hp hv
    | single hid hs => exact .single hid (hnested _ _ rfl) hs
    | item hid hs hi => exact .item hid (hnested _ _ rfl) hs (List.mem_of_getElem? hi)
    | entry hid hs hi => exact .value hid (hnested _ _ rfl) hs (List.mem_of_getElem? hi)

end Site

/-- The slot of a value in a role, where it is not only referred to. -/
def Role.slot : Role → Slot
  | .property p => .property p
  | .element type => .element type false

/-- What is written has a site for each of its parts, except for the keys of maps. -/
theorem PartOf.exists_part {part whole : Role × Value} (h : PartOf r part whole)
    (hw : Written r whole) (hs : ∀ type, part.1 ≠ .element (.scalar type)) (path : String) :
    ∃ hops path', Site.Part r ⟨whole.1.slot, path, whole.2⟩ hops ⟨part.1.slot, path', part.2⟩ := by
  cases h with
  | field ht hp hv => exact ⟨_, _, .field ht hp hv⟩
  | @single p type v hid hr hshape =>
    have hpart : Site.Part r ⟨.property p, path, v⟩ [] ⟨.element type p.isReference, path, v⟩ :=
      .single hid hshape
    rw [hr] at hpart
    exact ⟨_, _, hpart⟩
  | @item p type items v hid hr hshape hv =>
    obtain ⟨i, hi⟩ := List.mem_iff_getElem?.1 hv
    have hpart : Site.Part r ⟨.property p, path, .list items⟩ [.item i]
        ⟨.element type p.isReference, Path.element path (indexText i), v⟩ := .item hid hshape hi
    rw [hr] at hpart
    exact ⟨_, _, hpart⟩
  | key => exact absurd rfl (hs _)
  | @value p key type entries e hid hr hshape he =>
    obtain ⟨i, hi⟩ := List.mem_iff_getElem?.1 he
    obtain ⟨bs, hb⟩ := written_scalar_iff.1 (written_of_partOf (.key hid hr hshape he) hw)
    have htext : key.keyText e.1 = .ok (Utf8.lossy bs) := Outcome.map_eq_ok_iff.2 ⟨bs, hb, rfl⟩
    have hpart : Site.Part r ⟨.property p, path, .map entries⟩ [.entry i]
        ⟨.element type p.isReference, Path.element path (Utf8.lossy bs), e.2⟩ :=
      .entry hid hshape hi htext
    rw [hr] at hpart
    exact ⟨_, _, hpart⟩

/-- **There is a way to what occurs in a value that is written**, unless it is a scalar: a key has
no site. -/
theorem exists_leads_of_occurs {part whole : Role × Value} (h : Occurs r part whole)
    (hw : Written r whole) (hs : ∀ type, part.1 ≠ .element (.scalar type)) (path : String) :
    ∃ address path', Site.Leads r ⟨whole.1.slot, path, whole.2⟩ address
      ⟨part.1.slot, path', part.2⟩ := by
  induction h using Relation.ReflTransGen.head_induction_on with
  | refl => exact ⟨[], path, .here _⟩
  | @head part next hstep hrest ih =>
    have hnext : ∀ type, next.1 ≠ .element (.scalar type) := by
      intro type
      cases hstep <;> simp
    obtain ⟨address, path', hl⟩ := ih hnext
    obtain ⟨hops, path'', hpart⟩ := hstep.exists_part (written_of_occurs hrest hw) hs path'
    exact ⟨address ++ (hops ++ []), path'',
      Site.leads_append_iff.2 ⟨_, hl, .step hpart (.here _)⟩⟩

/-- **What a walk over an object gives is given by the value of one of its properties, or by a value
inside one of them.** -/
theorem Registry.mem_outline {t : EntityType} {o : Object} (hs : ¬ s.IsEntry)
    (h : s ∈ (r.outline t o).trace) :
    ∃ p ∈ t.properties, ∃ v, o.get? p.name = some v ∧ (Write.Gives true p v s ∨
      ∃ address q path w,
        Site.Leads r ⟨.property p, Path.join "" p.name, v⟩ address ⟨.property q, path, w⟩ ∧
          Write.Gives false q w s) := by
  obtain h | ⟨⟨⟩, -, h⟩ := Traced.mem_trace_bind_iff.1 h
  · exact absurd (Write.isEntry_of_mem_mark h) hs
  obtain ⟨p, hp, v, hv, h⟩ := Write.mem_properties h
  refine ⟨p, hp, v, hv, (Write.mem_property hs h).imp_right ?_⟩
  rintro ⟨hops, site, hpart, h⟩
  obtain ⟨address, q, path, w, hl, hgives⟩ := site.exists_gives hs h
  exact ⟨_, q, path, w, .step hpart hl, hgives⟩

/-! ## Objects -/

/-- The value of a property is one of an object of a registered type. -/
theorem exists_holder_of_occurs {p : Property} {v w : Value} {type : TypeRef}
    (h : Occurs r (.property p, v) (.element type, w)) :
    ∃ declared runtime fields t,
      Occurs r (.element (.entity declared), .object runtime fields) (.element type, w) ∧
      r.find? runtime = some t ∧ p ∈ t.properties ∧ Fields.get? fields p.name = some v := by
  obtain heq | ⟨next, hpart, hocc⟩ := h.cases_head
  · cases heq
  · cases hpart with
    | field ht hp hv => exact ⟨_, _, _, _, hocc, ht, hp, hv⟩

/-- **What a walk meets is the value of a property of the object, or of one that is written
inside.** -/
theorem Registry.Meets.exists_holder {o : Object} {keyspace : String}
    (h : r.Meets o keyspace name always text) :
    ∃ root, r.find? o.type = some root ∧ root.keyspace = keyspace ∧
      ∃ declared runtime fields t p v,
        Occurs r (.element (.entity declared), .object runtime fields) o.whole ∧
        r.find? runtime = some t ∧ p ∈ t.properties ∧ Fields.get? fields p.name = some v ∧
        p.name = name ∧ p.isIndexed = always := by
  obtain ⟨root, hroot, rfl, hmem⟩ := h
  refine ⟨root, hroot, rfl, ?_⟩
  obtain ⟨p, hp, v, hv, hgives⟩ := r.mem_outline (t := root) id hmem
  have hfield : PartOf r (.property p, v) o.whole := .field hroot hp hv
  obtain hgives | ⟨address, q, path, w, hl, hgives⟩ := hgives
  · cases hgives
    exact ⟨_, _, _, root, p, v, .refl, hroot, hp, hv, rfl, rfl⟩
  · obtain ⟨declared, runtime, fields, t, hobject, ht, hqt, hw⟩ :=
      exists_holder_of_occurs ((hl.occurs rfl).tail hfield)
    cases hgives
    exact ⟨declared, runtime, fields, t, q, w, hobject, ht, hqt, hw, rfl, rfl⟩

end FlatGraph
