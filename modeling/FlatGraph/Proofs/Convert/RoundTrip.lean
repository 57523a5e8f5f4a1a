import FlatGraph.Proofs.Convert.Canonical
import FlatGraph.Proofs.Convert.Elements
import FlatGraph.Proofs.Convert.Fields
import FlatGraph.Proofs.Model.Registry
import FlatGraph.Proofs.Scalar.Decode

/-!
# Writing and reading back

**An object without references that is canonical is written, and read back as an equal one**
(`read_write`), whatever indexes are defined, however references are resolved, and whichever type
it is asked for by.

What is carried through the induction over the object is that each part of it leaves pairs in its
own region of the record, out of which it is read again (`Restored`). Regions of different parts
are apart, so that the reader of a part finds just what its writer left; and as paths get longer
on the way down, the depth that `Registry.read` allows is never exceeded.

Texts of keys that are the same for two entries of a map spoil this
(`not_read_write_of_equal_keys`): both entries are written to one place. So do keys that are no
texts, and closing brackets in the keys of nested objects (`Chests.lost_all`).
-/

namespace FlatGraph

open FlatGraph.Path (IsName Below Within)

namespace RoundTrip

open Write (Leaves LeavesAt Region)

/-- The walk leaves pairs in a region, from which the value is read back: out of every record that
holds these pairs there, at every depth that the keys allow. -/
def Restored (walk : Walk Unit) (region : String → Bool) (size : Nat)
    (read : Resolver → Nat → Entries → Reading (Option Value)) (v : Value) : Prop :=
  ∃ xs, Leaves walk xs ∧ xs ≠ [] ∧ Tidy xs ∧ (∀ x ∈ xs, region x.1 = true) ∧
    ∀ resolve depth es, Holds es region xs → (∀ x ∈ xs, x.1.length < size + depth) →
      ∃ w, (read resolve depth es).outcome = .ok (some w) ∧ v.equal w = true

/-! ## Objects -/

variable {r : Registry}

theorem order_perm (t : EntityType) : (Read.order t).Perm t.properties :=
  List.filter_append_perm _ _

/-- An object is read back if each of its fields is. -/
theorem object_restored {t : EntityType} {fields : List (String × Value)} {base declared : String}
    {resolve : Resolver} {depth : Nat} {es : Entries}
    (ht : Read.resolveType r base declared es = .ok t)
    (hu : (t.properties.map (·.name)).Nodup) (hd : (fields.map Prod.fst).Nodup)
    (hn : ∀ name v, Fields.get? fields name = some v → ∃ p ∈ t.properties, p.name = name)
    (hp : ∀ p ∈ t.properties, ∃ v?,
      (Read.property resolve (Read.object r resolve depth) (Path.join base p.name) p es).outcome =
          .ok v? ∧
        Option.Rel (fun v w => v.equal w = true) (Fields.get? fields p.name) v?) :
    ∃ o, (Read.object r resolve (depth + 1) base declared es).outcome = .ok o ∧
      (Value.object t.name fields).equal o.toValue = true := by
  have hperm := order_perm t
  have hall : ∀ p ∈ Read.order t, ∃ f : String × Option Value, f.1 = p.name ∧
      (Read.property resolve (Read.object r resolve depth) (Path.join base p.name) p es).outcome =
        .ok f.2 ∧
      Option.Rel (fun v w => v.equal w = true) (Fields.get? fields p.name) f.2 := fun p hm => by
    obtain ⟨v?, hv⟩ := hp p (hperm.mem_iff.1 hm)
    exact ⟨(p.name, v?), rfl, hv⟩
  obtain ⟨found, hf⟩ := Lists.exists_forall₂ hall
  refine ⟨Read.assemble t.name found, Read.object_eq_ok_iff.2
    ⟨t, found, ht, hf.imp fun p f h => ⟨h.1, h.2.1⟩, rfl⟩, ?_⟩
  have hnames : found.map Prod.fst = (Read.order t).map (·.name) :=
    (Lists.map_eq_map_of_forall₂ hf fun p f h => h.1.symm).symm
  have hnd : (found.map Prod.fst).Nodup := by
    rw [hnames]
    exact (hperm.map _).nodup_iff.2 hu
  refine Value.equal_assemble hd hnd (fun name v hv => ?_) fun f hm => ?_
  · obtain ⟨p, hm, rfl⟩ := hn name v hv
    rw [hnames]
    exact List.mem_map.2 ⟨p, hperm.mem_iff.2 hm, rfl⟩
  · obtain ⟨p, -, h⟩ := Lists.exists_left_of_mem hf hm
    rw [h.1]
    exact h.2.2

/-! ## Values -/

/-- How values of a declared type are written and read back. -/
abbrev ElementRestored (r : Registry) (path : String) (type : TypeRef) (v : Value) : Prop :=
  Restored (Write.element r path type false v) (covers type false path) path.length
    (fun resolve depth es =>
      Read.valueAt resolve (Read.object r resolve depth) type false es path) v

/-- How values of properties are written and read back. -/
abbrev PropertyRestored (r : Registry) (root : Bool) (path : String) (p : Property)
    (v : Value) : Prop :=
  Restored (Write.property r root path p v) (inRegion path) path.length
    (fun resolve depth es => Read.property resolve (Read.object r resolve depth) path p es) v

/-- A pair at a path from which a scalar is read. -/
theorem restored_of_decode {walk : Walk Unit} {path : String} {type : ScalarType} {bs : Bytes}
    {v w : Value} (hl : Leaves walk [(path, bs)]) (hd : type.decode bs = .ok (some w))
    (he : v.equal w = true) :
    Restored walk (covers (.scalar type) false path) path.length (fun resolve depth es =>
      Read.valueAt resolve (Read.object r resolve depth) (.scalar type) false es path) v := by
  refine ⟨_, hl, List.cons_ne_nil _ _, .singleton (ScalarType.ne_nil_of_decode hd), fun x hx => ?_,
    fun resolve depth es hh _ => ⟨w, ?_, he⟩⟩
  · rw [List.mem_singleton.1 hx]
    exact (covers_leaf_iff rfl).2 rfl
  · rw [Read.valueAt_scalar_eq_ok_iff, hh.get? (List.mem_singleton_self _)]
    exact hd

theorem scalar_restored {path : String} {type : ScalarType} {v : Value} (h : type.Keeps v) :
    ElementRestored r path (.scalar type) v := by
  obtain ⟨bs, w, hb, hd, he⟩ := h
  have hv : v.isNull = false := by
    rw [← Value.isNull_of_equal he, ScalarType.isNull_of_decode hd]
  exact restored_of_decode
    ((Write.leaves_element_scalar_iff hv).2 ⟨bs, Write.encode_eq_ok_iff.2 hb, rfl⟩) hd he

/-- A property restores what a value of its type does. -/
theorem Restored.property {walk : Walk Unit} {root : Bool} {path : String} {type : TypeRef}
    {p : Property} {v : Value} (hr : p.isReference = false) (hs : p.shape = .single type)
    (hw : ∀ xs, Leaves walk xs → Leaves (Write.property r root path p v) xs)
    (h : Restored walk (covers type false path) path.length (fun resolve depth es =>
      Read.valueAt resolve (Read.object r resolve depth) type false es path) v) :
    PropertyRestored r root path p v := by
  obtain ⟨xs, hl, hne, ht, hc, hread⟩ := h
  refine ⟨xs, hw xs hl, hne, ht, fun x hx => inRegion_iff.2 (within_of_covers (hc x hx)),
    fun resolve depth es hh hlen => ?_⟩
  have hsub : Holds es (covers type false path) (xs.filter (covers type false path ·.1)) :=
    hh.sub fun k hk => inRegion_iff.2 (within_of_covers hk)
  rw [List.filter_eq_self.2 hc] at hsub
  simp only [Read.property_single hs, hr]
  exact hread resolve depth es hsub hlen

/-! ## Lists and maps -/

/-- What is left for elements, and what is read for them out of a record that holds it. -/
theorem elements_restored {α : Type} {type : TypeRef} (base : String) {as : List α}
    (text : α → String) (value : α → Value)
    (hd : Telling type false (as.map text))
    (h : ∀ a ∈ as, ElementRestored r (Path.element base (text a)) type (value a)) :
    ∃ parts, List.Forall₂ (fun a ys =>
          Leaves (Write.element r (Path.element base (text a)) type false (value a)) ys) as parts ∧
        (as ≠ [] → parts.flatten ≠ []) ∧ Tidy parts.flatten ∧
        (∀ x ∈ parts.flatten, inRegion base x.1 = true) ∧
        ∀ resolve depth es, Holds es (inRegion base) parts.flatten →
          (∀ x ∈ parts.flatten, x.1.length < base.length + depth) →
          Read.elementKeys type false es base = as.map (fun a => Path.element base (text a)) ∧
          ∀ a ∈ as, ∃ w, (Read.valueAt resolve (Read.object r resolve depth) type false es
              (Path.element base (text a))).outcome = .ok (some w) ∧
            (value a).equal w = true := by
  obtain ⟨parts, hp⟩ := Lists.exists_forall₂ h
  have hparts : ElementParts type false base (as.map text) parts :=
    List.forall₂_map_left_iff.2 (hp.imp fun _ _ h => ⟨h.2.1, h.2.2.1, h.2.2.2.1⟩)
  have hin : List.Forall₂ (fun text ys => ∀ x ∈ ys,
      covers type false (Path.element base text) x.1 = true) (as.map text) parts :=
    hparts.imp fun _ _ h => h.2.2
  refine ⟨parts, hp.imp fun _ _ h => h.1, fun hne => ?_, Tidy.flatten (apart_elements hd) hin ?_,
    fun x hx => ?_, fun resolve depth es hh hlen => ⟨?_, fun a ha => ?_⟩⟩
  · obtain ⟨a, ha⟩ := List.exists_mem_of_ne_nil as hne
    obtain ⟨ys, hys, hy⟩ := Lists.exists_right_of_mem hp ha
    intro hnil
    exact hy.2.1 (List.flatten_eq_nil_iff.1 hnil ys hys)
  · intro ys hys
    obtain ⟨_, -, hy⟩ := Lists.exists_left_of_mem hparts hys
    exact hy.2.1
  · exact inRegion_iff.2
      (.inr (Path.below_of_beginsWith_elementStart (beginsWith_of_parts hparts hx)))
  · rw [elementKeys_of_parts hd hparts hh, List.map_map]
    rfl
  · have hinside : ∀ text k, covers type false (Path.element base text) k = true →
        inRegion base k = true := fun text k hk => inRegion_iff.2
      (.inr ((Path.below_element base text).trans_within (within_of_covers hk)))
    have hholds := Holds.of_apart hh (apart_elements hd) hin fun a _ => hinside a
    have hboth := Lists.forall₂_and hp (List.forall₂_map_left_iff.1 hholds)
    obtain ⟨ys, hys, ⟨_, _, _, _, hread⟩, hhy⟩ := Lists.exists_right_of_mem hboth ha
    refine hread resolve depth es hhy fun x hx => ?_
    have := hlen x (List.mem_flatten_of_mem hys hx)
    have := (Path.below_element base (text a)).length_lt
    omega

/-- A list restores its items. -/
theorem list_restored {root : Bool} {path : String} {type : TypeRef} {p : Property}
    {items : List Value} (hid : p.isId = false) (hr : p.isReference = false)
    (hs : p.shape = .list type) (hne : items ≠ [])
    (h : ∀ v ∈ items, ∀ path, path ≠ "" → ElementRestored r path type v) :
    PropertyRestored r root path p (.list items) := by
  obtain ⟨parts, hl, hnil, ht, hc, hread⟩ := elements_restored path
    (fun v : Value × Nat => indexText v.2) Prod.fst (telling_indexTexts items 0) fun v hv =>
      h v.1 (List.fst_mem_of_mem_zipIdx hv) _ (Path.element_ne_empty _ _)
  have hitems : items.zipIdx 0 ≠ [] := fun h0 => hne (List.zipIdx_eq_nil_iff.1 h0)
  refine ⟨parts.flatten, ?_, hnil hitems, ht, hc, fun resolve depth es hh hlen => ?_⟩
  · rw [Write.leaves_property_list_iff hid hs, hr]
    exact ⟨items, rfl, Write.leaves_elements_iff.2 ⟨parts, hl, rfl⟩⟩
  obtain ⟨hkeys, hvalues⟩ := hread resolve depth es hh hlen
  have hall : ∀ v ∈ items.zipIdx 0, ∃ f : Nat × Value, f.1 = min v.2 Number.greatestWord ∧
      (Read.valueAt resolve (Read.object r resolve depth) type false es
        (Path.element path (indexText v.2))).outcome = .ok (some f.2) ∧
      v.1.equal f.2 = true := fun v hv => by
    obtain ⟨w, hw⟩ := hvalues v hv
    exact ⟨(min v.2 Number.greatestWord, w), rfl, hw⟩
  obtain ⟨found, hf⟩ := Lists.exists_forall₂ hall
  have hplaces : found.map Prod.fst = (List.range' 0 items.length).map
      (min · Number.greatestWord) := by
    rw [← List.zipIdx_map_snd 0 items, List.map_map]
    exact (Lists.map_eq_map_of_forall₂ hf fun v f h => h.1.symm).symm
  have hsorted : (found.map Prod.fst).Pairwise (· ≤ ·) := by
    rw [hplaces, List.pairwise_map]
    exact List.pairwise_le_range'.imp fun h => min_le_min_right _ h
  have hfound : found ≠ [] := fun h0 => by
    rw [h0, List.forall₂_nil_right_iff] at hf
    exact hitems hf
  refine ⟨.list (found.map (·.2)), (Read.property_list_eq_ok_iff hs).2 ⟨found.map some, ?_, ?_⟩, ?_⟩
  · rw [hr, hkeys, List.forall₂_map_left_iff, List.forall₂_map_right_iff]
    refine hf.imp fun v f h => ⟨some f.2, h.2.1, ?_⟩
    rw [place_element, ← h.1]
    rfl
  · rw [Read.listOf_map_some hfound, Read.inOrder_of_places hsorted]
  · rw [Value.equal, Value.equalItems_iff, List.forall₂_map_right_iff]
    have : List.Forall₂ (fun v f => v.equal f.2 = true) ((items.zipIdx 0).map Prod.fst) found :=
      List.forall₂_map_left_iff.2 (hf.imp fun _ _ h => h.2.2)
    rwa [List.zipIdx_map_fst] at this

/-- A map restores its entries. -/
theorem map_restored {root : Bool} {path : String} {key : ScalarType} {type : TypeRef}
    {p : Property} {entries : List (Value × Value)} (hid : p.isId = false)
    (hr : p.isReference = false) (hs : p.shape = .map key type) (hne : entries ≠ [])
    (hk : KeysTold key type (entries.map Prod.fst))
    (h : ∀ e ∈ entries, ∀ path, path ≠ "" → ElementRestored r path type e.2) :
    PropertyRestored r root path p (.map entries) := by
  obtain ⟨hk, hd, hb⟩ := hk
  replace hk : ∀ e ∈ entries, key.KeepsKey e.1 := fun e he => hk _ (List.mem_map_of_mem he)
  let textOf (e : Value × Value) : String := (key.keyText e.1).toOption.getD ""
  have htext : ∀ e ∈ entries, key.keyText e.1 = .ok (textOf e) := fun e he => by
    obtain ⟨text, _, ht, -⟩ := hk e he
    simp only [textOf, ht]
    rfl
  obtain ⟨parts, hl, hnil, ht, hc, hread⟩ := elements_restored path textOf Prod.snd
    (ScalarType.TellsApart.telling ⟨hd, hb⟩ htext) fun e he => h e he _ (Path.element_ne_empty _ _)
  refine ⟨parts.flatten, ?_, hnil hne, ht, hc, fun resolve depth es hh hlen => ?_⟩
  · rw [Write.leaves_property_map_iff hid hs, hr]
    refine ⟨entries, rfl, Write.leaves_mapEntries_iff.2 ⟨parts, ?_, rfl⟩⟩
    refine Lists.forall₂_imp_mem hl fun e he ys _ hy => ?_
    obtain ⟨bs, hbs, hlossy⟩ := Outcome.map_eq_ok_iff.1 (htext e he)
    exact ⟨bs, Write.encode_eq_ok_iff.2 hbs, by rwa [hlossy]⟩
  obtain ⟨hkeys, hvalues⟩ := hread resolve depth es hh hlen
  have hall : ∀ e ∈ entries, ∃ f : Value × Value,
      (Read.entryValue (Path.element path (textOf e))
        (Read.keyText type false (Path.elementStart path) (Path.element path (textOf e))) key
        (Read.valueAt resolve (Read.object r resolve depth) type false es
          (Path.element path (textOf e)))).outcome = .ok (some f) ∧
      e.1.equal f.1 = true ∧ e.2.equal f.2 = true := fun e he => by
    obtain ⟨w, hw, hequal⟩ := hvalues e he
    obtain ⟨text, k, ht, hdecode, hkequal⟩ := hk e he
    cases (htext e he).symm.trans ht
    refine ⟨(k, w), Read.entryValue_eq_ok_iff.2 (.inr ⟨_, k, _, ?_, hdecode, hw, rfl⟩),
      hkequal, hequal⟩
    rcases Read.isLeaf_or_nested type false with hl | ⟨name, rfl, -⟩
    · rw [Read.keyText_of_isLeaf hl, Path.leafKey?_eq_some_iff]
    · exact Path.elementKey?_element (hb rfl _ (List.mem_map_of_mem he) _ ht)
  obtain ⟨found, hf⟩ := Lists.exists_forall₂ hall
  have hfound : found ≠ [] := fun h0 => by
    rw [h0, List.forall₂_nil_right_iff] at hf
    exact hne hf
  refine ⟨.map found, (Read.property_map_eq_ok_iff hs).2 ⟨found.map some, ?_, ?_⟩, ?_⟩
  · rw [hr, hkeys, List.forall₂_map_left_iff, List.forall₂_map_right_iff]
    exact hf.imp fun e f h => h.1
  · have : (found.map some).filterMap id = found := by
      rw [List.filterMap_map]
      exact List.filterMap_some
    rw [Read.mapOf, this, if_neg (by simpa using hfound)]
  · rw [Value.equal, Value.equalEntries_iff]
    exact hf.imp fun _ _ h => h.2

/-! ## Fields -/

/-- What is left for a field, if there is a value for it, and what is read out of a record that
holds it. -/
structure FieldRestored (r : Registry) (root : Bool) (base : String)
    (fields : List (String × Value)) (p : Property) (xs : List (String × Bytes)) : Prop where
  leaves : LeavesAt r root (Path.join base p.name) p (Fields.get? fields p.name) xs
  ne_nil : ∀ v, Fields.get? fields p.name = some v → xs ≠ []
  tidy : Tidy xs
  inside : ∀ x ∈ xs, inRegion (Path.join base p.name) x.1 = true
  back : ∀ resolve depth es, Holds es (inRegion (Path.join base p.name)) xs →
    (∀ x ∈ xs, x.1.length ≤ base.length + depth) →
    ∃ v?, (Read.property resolve (Read.object r resolve depth) (Path.join base p.name) p
        es).outcome = .ok v? ∧
      Option.Rel (fun v w => v.equal w = true) (Fields.get? fields p.name) v?

section Fields

variable {t : EntityType} {root : Bool} {base : String} {fields : List (String × Value)}

theorem exists_fieldRestored {p : Property} (hp : IsName p.name)
    (h : ∀ v, Fields.get? fields p.name = some v →
      PropertyRestored r root (Path.join base p.name) p v) :
    ∃ xs, FieldRestored r root base fields p xs := by
  have hlonger := @Path.length_lt_join base _ hp.ne_empty
  cases hv : Fields.get? fields p.name with
  | none =>
    refine ⟨[], by rw [hv]; rfl, fun v h => ?_, .nil, fun _ hx => (nomatch hx),
      fun resolve depth es hh _ => ⟨none, ?_, by rw [hv]; exact .none⟩⟩
    · rw [hv] at h
      cases h
    · refine Read.property_of_empty (Path.join_ne_empty hp.ne_empty) fun k hk => ?_
      exact hh.get?_eq_none (inRegion_iff.2 hk) fun _ => List.not_mem_nil
  | some v =>
    obtain ⟨xs, hl, hne, ht, hin, hread⟩ := h v hv
    refine ⟨xs, by rwa [hv], fun _ _ => hne, ht, hin, fun resolve depth es hh hlen => ?_⟩
    obtain ⟨w, hw, he⟩ := hread resolve depth es hh fun x hx => by
      have := hlen x hx
      omega
    exact ⟨some w, hw, by rw [hv]; exact .some he⟩

variable {left : Property → List (String × Bytes)}
  (h : ∀ p ∈ t.properties, FieldRestored r root base fields p (left p))

include h

theorem leaves_fields :
    Leaves (Write.properties r root base fields t.properties) (t.properties.flatMap left) := by
  refine Write.leaves_properties_iff.2 ⟨t.properties.map left, ?_, rfl⟩
  rw [List.forall₂_map_right_iff, List.forall₂_same]
  exact fun p hp => (h p hp).leaves

/-- An object is read back out of a record in which its fields find what was left for them. -/
theorem object_back {declared : String} (resolve : Resolver) (depth : Nat) {es : Entries}
    (ht : Read.resolveType r base declared es = .ok t) (hu : (t.properties.map (·.name)).Nodup)
    (hd : (fields.map Prod.fst).Nodup)
    (hn : ∀ name v, Fields.get? fields name = some v → ∃ p ∈ t.properties, p.name = name)
    (hh : ∀ p ∈ t.properties, Holds es (inRegion (Path.join base p.name)) (left p))
    (hlen : ∀ x ∈ t.properties.flatMap left, x.1.length ≤ base.length + depth) :
    ∃ o, (Read.object r resolve (depth + 1) base declared es).outcome = .ok o ∧
      (Value.object t.name fields).equal o.toValue = true :=
  object_restored ht hu hd hn fun p hp => (h p hp).back resolve depth es (hh p hp) fun x hx =>
    hlen x (List.mem_flatMap.2 ⟨p, hp, hx⟩)

end Fields

/-! ## Objects inside objects -/

/-- An object inside another is restored if its fields are. -/
theorem nested_restored {path declared type : String} {t : EntityType}
    {fields : List (String × Value)} (hb : r.Built) (hr : r.Named) (he : r.NoEmptyType)
    (hpath : path ≠ "")
    (ht : r.find? type = some t) (ha : type = declared ∨ r.isAssignable type declared = true)
    (hc : type ≠ declared ∨ Fields.count fields ≠ 0) (hd : (fields.map Prod.fst).Nodup)
    (hn : ∀ name v, Fields.get? fields name = some v → ∃ p ∈ t.properties, p.name = name)
    (h : ∀ p ∈ t.properties, ∀ v, Fields.get? fields p.name = some v →
      PropertyRestored r false (Path.join path p.name) p v) :
    ElementRestored r path (.entity declared) (.object type fields) := by
  have hnames := hr.isName type t ht
  have hu := hr.distinct type t ht
  have hfields : ∀ p ∈ t.properties, ∃ xs, FieldRestored r false path fields p xs := fun p hp =>
    exists_fieldRestored (hnames p hp) (h p hp)
  choose! left hleft using hfields
  have hhints : ∀ x ∈ Write.hints path type declared, x.1 = Path.hintOf path := fun _ =>
    Write.fst_of_mem_hints
  have hin := fun p hp => (hleft p hp).inside
  have hnil : Write.hints path type declared ++ t.properties.flatMap left ≠ [] := by
    rw [Ne, List.append_eq_nil_iff, List.flatMap_eq_nil_iff]
    rintro ⟨h1, h2⟩
    rcases hc with hc | hc
    · rw [Write.hints, if_neg hc] at h1
      cases h1
    · obtain ⟨name, v, hv⟩ := Value.exists_get?_of_count hd hc
      obtain ⟨p, hm, rfl⟩ := hn name v hv
      exact (hleft p hm).ne_nil v hv (h2 p hm)
  refine ⟨_, (Write.leaves_nested_iff rfl).2 ⟨type, fields, t, _, rfl, ht, ha,
    leaves_fields hleft, rfl⟩, hnil,
    tidy_object hnames hu hhints hin (tidy_hints path declared (he type t ht))
      fun p hp => (hleft p hp).tidy,
    fun x hx => inRegion_iff.2 (below_of_mem_object hhints hin hpath hx).within,
    fun resolve depth es hh hlen => ?_⟩
  obtain ⟨x, hx⟩ := List.exists_mem_of_ne_nil _ hnil
  obtain ⟨d, rfl⟩ : ∃ d, depth = d + 1 := by
    have hlong := hlen x hx
    have hlonger := (below_of_mem_object hhints hin hpath hx).length_lt
    exact ⟨depth - 1, by omega⟩
  obtain ⟨o, ho, he⟩ := object_back hleft resolve d
    (resolveType_extract hpath hnames hu hin hh ht ha) hu hd hn
    (holds_extract hpath hnames hu hin hh) fun x hx => by
      have := hlen x (List.mem_append_right _ hx)
      omega
  refine ⟨o.toValue, Read.inner_eq_ok_iff.2 ?_, (hb.sound ht).1 ▸ he⟩
  rw [if_neg (mt (size_extract_object hpath hin hh).1 hnil)]
  exact ⟨o, ho, rfl⟩

/-! ## Canonical values -/

/-- How a value is restored where it stands. -/
def RestoredAt (r : Registry) (v : Value) : Role → Prop
  | .element type => ∀ path, path ≠ "" → ElementRestored r path type v
  | .property p => ∀ root path, path ≠ "" → PropertyRestored r root path p v

theorem id_restored {root : Bool} {path : String} {p : Property} {type : ScalarType} {v : Value}
    (hid : p.isId = true) (hr : p.isReference = false) (hs : p.shape = .single (.scalar type))
    (h : type.KeepsId v) : PropertyRestored r root path p v := by
  obtain ⟨hscalar, text, w, ht, hd, he⟩ := h
  refine Restored.property hr hs (fun _ => id) (restored_of_decode ?_ hd he)
  exact (Write.leaves_property_of_isId hid).2
    ⟨text, Write.idText_eq_ok_iff.2 ⟨hscalar, ht⟩, rfl⟩

/-- **Canonical values are restored.** -/
theorem restored_of_canonical (hb : r.Built) (hr : r.Named) (he : r.NoEmptyType) {role : Role}
    {v : Value} (h : Canonical r KeysTold role v) : RestoredAt r v role := by
  induction h with
  | scalar h => exact fun path _ => scalar_restored h
  | object ht ha hc hd hn _ ih =>
    intro path hpath
    refine nested_restored hb hr he hpath ht ha hc hd hn fun p hp v hv => ih p hp v hv false _ ?_
    exact Path.join_ne_empty_of_base hpath
  | id hid hp hs h => exact fun root path _ => id_restored hid hp hs h
  | single hid hp hs _ ih =>
    intro root path hpath
    refine Restored.property hp hs (fun xs hl => ?_) (ih path hpath)
    rwa [Write.leaves_property_single_iff hid hs, hp]
  | list hid hp hs hne _ ih => exact fun root path _ => list_restored hid hp hs hne ih
  | map hid hp hs hne hk _ ih => exact fun root path _ => map_restored hid hp hs hne hk ih

end RoundTrip

open RoundTrip in
/-- **What is written for a canonical object is read back as an equal one.** -/
theorem read_write {r : Registry} (hb : r.Built) (hr : r.Named) (he : r.NoEmptyType)
    {t : EntityType} {o : Object} (ho : o.Canonical r KeysTold t) {type : String}
    (ha : r.isAssignable o.type type = true) (ix : Indexes) (resolve : Resolver) :
    ∃ record o', (r.write ix o).1 = .ok record ∧
      (r.read resolve type record.entries).outcome = .ok (some o') ∧ o.equal o' = true := by
  have hnames := hr.isName _ t ho.type
  have hu := hr.distinct _ t ho.type
  have hfields : ∀ p ∈ t.properties, ∃ xs, FieldRestored r true "" o.fields p xs := fun p hp =>
    exists_fieldRestored (hnames p hp) fun v hv => restored_of_canonical hb hr he
      (ho.field p hp v hv) true _ (Path.join_ne_empty (hnames p hp).ne_empty)
  choose! left hleft using hfields
  have hin := fun p hp => (hleft p hp).inside
  have hhint : ∀ x ∈ [(Path.hint, Utf8.encode o.type)], x.1 = Path.hintOf "" := by simp
  have htidy := tidy_object hnames hu hhint hin
    (.singleton (mt Utf8.encode_eq_nil_iff.1 (he _ t ho.type))) fun p hp => (hleft p hp).tidy
  obtain ⟨record, hw, hentries⟩ := Write.write_entries_iff.2
    ⟨t, _, ho.type, Write.leaves_outline_iff.2 ⟨_, leaves_fields hleft, rfl⟩, rfl⟩
  have hlist : record.entries.toList =
      [(Path.hint, Utf8.encode o.type)] ++ t.properties.flatMap left := by
    rw [hentries]
    refine Entries.toList_putAll htidy.distinct fun x hx =>
      ⟨key_ne_empty_of_object hnames hhint hin hx, htidy.filled x hx⟩
  have hholds : Holds record.entries (fun _ => true)
      ([(Path.hint, Utf8.encode o.type)] ++ t.properties.flatMap left) := by
    rw [Holds, List.filter_true, hlist]
  have htype : Read.resolveType r "" type record.entries = .ok t :=
    Read.resolveType_of_hint (hholds.get? List.mem_cons_self) ho.type ha
  obtain ⟨o', ho', hequal⟩ := object_back hleft resolve (r.size + record.entries.longestKey + 1)
    htype hu ho.distinct ho.named
    (holds_fields hnames hu hhint hin hholds fun _ _ _ => rfl) fun x hx => by
      have := Entries.le_longestKey (hlist ▸ List.mem_append_right _ hx)
      omega
  rw [(hb.sound ho.type).1] at hequal
  refine ⟨record, o', hw, ?_, hequal⟩
  have hsize : record.entries.size ≠ 0 := by
    rw [Entries.size, hlist]
    exact Nat.succ_ne_zero _
  exact Registry.read_eq_some_iff.2 ⟨hsize, ho'⟩

/-! ## Boxes -/

/-- The boxes in a box. -/
def inside : Property := { name := "inside", shape := .list (.entity "Box") }

/-- The notes on a box, by their headings. -/
def notes : Property := { name := "notes", shape := .map .text (.scalar .text) }

/-- Boxes have notes on them, and hold boxes. -/
def box : EntityType := { name := "Box", properties := [notes, inside] }

/-- The registry of boxes. -/
def boxes : Registry := ⟨[("Box", box)]⟩

theorem built_boxes : boxes.Built := .register .empty (t := box) (by rfl)

theorem named_boxes : boxes.Named := .of_types (by decide)

theorem noEmptyType_boxes : boxes.NoEmptyType := .of_types (by decide)

/-- What has to be checked of a box. -/
theorem canonical_box {rule : KeyRule} {fields : List (String × Value)}
    (hd : (fields.map Prod.fst).Nodup)
    (hn : ∀ f ∈ fields, f.1 = "notes" ∨ f.1 = "inside")
    (hnotes : ∀ v, Fields.get? fields "notes" = some v → Canonical boxes rule (.property notes) v)
    (hinside : ∀ v, Fields.get? fields "inside" = some v →
      Canonical boxes rule (.property inside) v) :
    (Object.mk "Box" fields).Canonical boxes rule box where
  type := rfl
  distinct := hd
  named name v hv := by
    rcases hn _ ((Fields.get?_eq_some_iff hd).1 hv).1 with rfl | rfl
    · exact ⟨notes, by decide, rfl⟩
    · exact ⟨inside, by decide, rfl⟩
  field p hp v hv := by
    simp only [box, List.mem_cons, List.not_mem_nil, or_false] at hp
    rcases hp with rfl | rfl
    · exact hnotes v hv
    · exact hinside v hv

theorem keeps_text {s : String} (h : s ≠ "") : ScalarType.text.Keeps (.text s) := by
  refine ⟨_, .text s, rfl, ?_, by simp [Value.equal]⟩
  rw [ScalarType.decode_eq_some_iff (by decide)]
  exact ⟨fun h0 => h (Utf8.encode_eq_nil_iff.1 h0), s, Utf8.decode_encode s, rfl⟩

theorem keyText_text (s : String) : ScalarType.text.keyText (.text s) = .ok s := by
  rw [ScalarType.keyText, Outcome.map_eq_ok_iff]
  exact ⟨_, rfl, Utf8.lossy_encode s⟩

theorem keepsKey_text {s : String} (h : s ≠ "") : ScalarType.text.KeepsKey (.text s) := by
  obtain ⟨bs, w, hb, hd, he⟩ := keeps_text h
  cases hb
  exact ⟨s, w, keyText_text s, hd, he⟩

/-- A box with notes on it. -/
def noted (entries : List (String × String)) : Object where
  type := "Box"
  fields := [("notes", .map (entries.map fun e => (.text e.1, .text e.2)))]

theorem canonical_noted {rule : KeyRule} {entries : List (String × String)} (hne : entries ≠ [])
    (hk : rule .text (.scalar .text) (entries.map fun e => .text e.1))
    (hv : ∀ e ∈ entries, e.2 ≠ "") : (noted entries).Canonical boxes rule box := by
  refine canonical_box (by simp) (by simp) (fun v h => ?_) fun v h => by cases h
  cases h
  refine .map rfl rfl rfl (by simpa using hne) ?_ fun e he => ?_
  · rw [List.map_map]
    exact hk
  obtain ⟨e, hm, rfl⟩ := List.mem_map.1 he
  exact .scalar (keeps_text (hv e hm))

/-- A box in a box. -/
def crate : Object where
  type := "Box"
  fields := [("inside", .list [(noted [("up", "this side"), ("to", "cellar")]).toValue])]

theorem canonical_crate : crate.Canonical boxes KeysTold box := by
  have hin : (noted [("up", "this side"), ("to", "cellar")]).Canonical boxes KeysTold box := by
    refine canonical_noted (by simp) ⟨?_, ?_, fun h => nomatch h⟩ (by simp)
    · simpa [KeysKept] using ⟨keepsKey_text (by decide), keepsKey_text (by decide)⟩
    · simp [keyText_text]
  refine canonical_box (by simp) (by simp) (fun v h => by cases h) fun v h => ?_
  cases h
  refine .list rfl rfl rfl (by simp) fun v hv => ?_
  rw [List.mem_singleton.1 hv]
  exact .object hin.type (.inl rfl) (.inr (by decide)) hin.distinct hin.named hin.field

/-- The box in the box is read back. -/
theorem read_write_crate :
    ∃ record o', (boxes.write {} crate).1 = .ok record ∧
      (boxes.read .nothing "Box" record.entries).outcome = .ok (some o') ∧
      crate.equal o' = true :=
  read_write built_boxes named_boxes noEmptyType_boxes canonical_crate (by decide) {} .nothing

open Write in
theorem leaves_noted (s t : String) :
    Leaves (boxes.outline box (noted [("a", s), ("a", t)]))
      [(Path.hint, Utf8.encode "Box"), ("notes.[a]", Utf8.encode s),
        ("notes.[a]", Utf8.encode t)] := by
  have hkey : Path.element (Path.join "" notes.name) (Utf8.lossy (Utf8.encode "a")) =
      "notes.[a]" := by decide +kernel
  refine leaves_outline_iff.2 ⟨_, leaves_properties_iff.2
    ⟨[[("notes.[a]", Utf8.encode s), ("notes.[a]", Utf8.encode t)], []], ?_, rfl⟩, rfl⟩
  refine .cons ((leaves_property_map_iff rfl rfl).2 ⟨_, rfl, leaves_mapEntries_iff.2
    ⟨[[("notes.[a]", Utf8.encode s)], [("notes.[a]", Utf8.encode t)]], ?_, rfl⟩⟩) (.cons rfl .nil)
  refine .cons ⟨_, rfl, ?_⟩ (.cons ⟨_, rfl, ?_⟩ .nil) <;> rw [hkey] <;>
    exact (leaves_element_scalar_iff rfl).2 ⟨_, rfl, rfl⟩

/-- Where two keys of a map have the same text, the second entry takes the place of the first. -/
theorem not_read_write_of_equal_keys :
    ¬ ∀ (r : Registry), r.Built → r.Named → r.NoEmptyType → ∀ (t : EntityType) (o : Object),
      o.Canonical r KeysKept t → ∀ type, r.isAssignable o.type type = true →
      ∀ (ix : Indexes) (resolve : Resolver),
        ∃ record o', (r.write ix o).1 = .ok record ∧
          (r.read resolve type record.entries).outcome = .ok (some o') ∧ o.equal o' = true := by
  intro h
  have ho : (noted [("a", "x"), ("a", "y")]).Canonical boxes KeysKept box := by
    refine canonical_noted (by simp) ?_ (by simp)
    simpa [KeysKept] using keepsKey_text (by decide)
  obtain ⟨record, o', hw, hr, he⟩ := h boxes built_boxes named_boxes noEmptyType_boxes box _ ho
    "Box" (by decide) {} .nothing
  obtain ⟨_, hw', hentries⟩ := Write.write_entries_iff.2 ⟨box, _, rfl, leaves_noted "x" "y", rfl⟩
  cases hw.symm.trans hw'
  rw [hentries] at hr
  have hread : (boxes.read .nothing "Box" (Entries.empty.putAll
        [(Path.hint, Utf8.encode "Box"), ("notes.[a]", Utf8.encode "x"),
          ("notes.[a]", Utf8.encode "y")])).outcome.toOption.join.elim false
      (noted [("a", "x"), ("a", "y")]).equal = false := by decide +kernel
  rw [hr] at hread
  exact absurd (he.symm.trans hread) (by decide)

/-! ## Keys that lose entries -/

/-- The texts of the keys differ. -/
def KeysDistinct : KeyRule := fun key _ ks => (ks.map key.keyText).Nodup

/-- The texts of keys of nested objects hold no closing brackets. -/
def KeysClosed : KeyRule := fun key type ks =>
  Read.isLeaf type false = false → ∀ k ∈ ks, ∀ text, key.keyText k = .ok text → ']' ∉ text.toList

theorem keysTold_iff {key : ScalarType} {type : TypeRef} {ks : List Value} :
    KeysTold key type ks ↔
      KeysKept key type ks ∧ KeysDistinct key type ks ∧ KeysClosed key type ks := Iff.rfl

namespace Chests

/-- What is in a drawer. -/
def content : Property := { name := "content", shape := .single (.scalar .text) }

def drawer : EntityType := { name := "Drawer", properties := [content] }

/-- The drawers of a chest, by their labels. -/
def drawers : Property := { name := "drawers", shape := .map .text (.entity "Drawer") }

/-- The seals on a chest, by their prints. -/
def seals : Property := { name := "seals", shape := .map .bytes (.scalar .text) }

def chest : EntityType := { name := "Chest", properties := [drawers, seals] }

/-- The registry of chests. -/
def chests : Registry := ⟨[("Chest", chest), ("Drawer", drawer)]⟩

/-- A drawer with linen in it. -/
def linen : Value := .object "Drawer" [("content", .text "linen")]

/-- A chest of drawers with these labels. -/
def drawn (labels : List String) : Object where
  type := "Chest"
  fields := [("drawers", .map (labels.map fun label => (.text label, linen)))]

/-- A chest with a seal. -/
def sealed (print : Bytes) : Object where
  type := "Chest"
  fields := [("seals", .map [(.bytes print, .text "red")])]

variable {rule : KeyRule}

theorem of_get?_singleton {field name : String} {v w : Value}
    (h : Fields.get? [(field, v)] name = some w) : name = field ∧ w = v := by
  have hmem := ((Fields.get?_eq_some_iff (by simp)).1 h).1
  exact Prod.mk.inj (List.mem_singleton.1 hmem)

theorem canonical_linen : Canonical chests rule (.element (.entity "Drawer")) linen := by
  refine .object (t := drawer) rfl (.inl rfl) (.inr (by decide)) (by decide) (fun name v hv => ?_)
    fun p hp v hv => ?_
  · obtain ⟨rfl, -⟩ := of_get?_singleton hv
    exact ⟨content, by decide, rfl⟩
  · cases List.mem_singleton.1 hp
    cases hv
    exact .single rfl rfl rfl (.scalar (keeps_text (by decide)))

theorem canonical_chest {p : Property} {v : Value} (hp : p ∈ chest.properties)
    (h : Canonical chests rule (.property p) v) :
    (Object.mk "Chest" [(p.name, v)]).Canonical chests rule chest where
  type := rfl
  distinct := List.nodup_singleton _
  named name w hw := ⟨p, hp, (of_get?_singleton hw).1.symm⟩
  field q hq w hw := by
    obtain ⟨hname, rfl⟩ := of_get?_singleton hw
    have hdistinct : (chest.properties.map (·.name)).Nodup := by decide
    rwa [List.inj_on_of_nodup_map hdistinct hq hp hname]

theorem canonical_drawn {labels : List String} (hne : labels ≠ [])
    (hk : rule .text (.entity "Drawer") (labels.map .text)) :
    (drawn labels).Canonical chests rule chest := by
  refine canonical_chest (p := drawers) List.mem_cons_self ?_
  refine .map rfl rfl rfl (by simpa using hne) ?_ fun e he => ?_
  · rwa [List.map_map]
  · obtain ⟨label, -, rfl⟩ := List.mem_map.1 he
    exact canonical_linen

theorem canonical_sealed {print : Bytes} (hk : rule .bytes (.scalar .text) [.bytes print]) :
    (sealed print).Canonical chests rule chest := by
  refine canonical_chest (p := seals) (by decide) ?_
  refine .map rfl rfl rfl (by simp) hk fun e he => ?_
  rw [List.mem_singleton.1 he]
  exact .scalar (keeps_text (by decide))

/-- Whether the object is written, and another one is read back. -/
def lost (o : Object) : Bool :=
  match (chests.write {} o).1 with
  | .ok record =>
    match (chests.read .nothing o.type record.entries).outcome with
    | .ok (some o') => !o.equal o'
    | _ => false
  | .error _ => false

/-- **Each of the conditions on keys is needed**: a key that is no text, two keys of the same text,
and a key that closes its own bracket, where the other two conditions are kept. -/
theorem lost_all :
    (sealed [0xff]).Canonical chests
        (fun key type ks => KeysDistinct key type ks ∧ KeysClosed key type ks) chest ∧
      (drawn ["a", "a"]).Canonical chests
        (fun key type ks => KeysKept key type ks ∧ KeysClosed key type ks) chest ∧
      (drawn ["a]b"]).Canonical chests
        (fun key type ks => KeysKept key type ks ∧ KeysDistinct key type ks) chest ∧
      [sealed [0xff], drawn ["a", "a"], drawn ["a]b"]].all lost = true := by
  have hkept : ∀ s ∈ ["a", "a]b"], ScalarType.text.KeepsKey (.text s) := fun s hs =>
    keepsKey_text (by rintro rfl; simp at hs)
  refine ⟨canonical_sealed ⟨List.nodup_singleton _, fun h => nomatch h⟩,
    canonical_drawn (by simp) ⟨?_, ?_⟩, canonical_drawn (by simp) ⟨?_, List.nodup_singleton _⟩,
    by decide +kernel⟩
  · simpa [KeysKept] using hkept "a" (by simp)
  · rintro - k hk text ht
    obtain rfl : k = .text "a" := by simpa using hk
    cases (keyText_text "a").symm.trans ht
    decide
  · simpa [KeysKept] using hkept "a]b" (by simp)

end Chests
end FlatGraph
