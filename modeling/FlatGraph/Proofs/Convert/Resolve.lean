import FlatGraph.Proofs.Convert.Followed

/-!
# Resolving references

**Each reference is stored as one pointer and resolved once** (`resolved_once`): in the order in
which the objects that are referred to stand in the object that was written, and with the id and
the keyspace that the pointer was made of, even if there are colons in the id. For this the keys
of maps have to tell the entries apart; the resolver may do as it likes.

The proof goes from the parts of a value to the whole (`Followed.at_of_separate`). The fields of an
object have regions of their own in its record, so that each of them is followed on its own. A read
goes through the properties in another order than a write, but those that are moved to the front
are scalars (`Followed.marks_fields`).
-/

namespace FlatGraph

open FlatGraph.Path (IsName Below Within)
open Rewrite (indexed keyed)
open Traced (Marks)
open Write (Leaves LeavesAt)

variable {r : Registry} {resolve : Resolver}

namespace Followed

variable {path : String} {reference : Bool} {v : Value} {xs : List (String × Bytes)}

/-! ## Properties -/

section Property

variable {root : Bool} {p : Property} {type : TypeRef}

/-- A property of one value is read as that value is. -/
theorem property (hs : p.shape = .single type)
    (h : Followed r resolve xs (covers type p.isReference path)
      (Link.ofElement r path type p.isReference v)
      (fun depth es =>
        Read.valueAt resolve (Read.object r resolve depth) type p.isReference es path)
      (ElementBack r resolve type p.isReference v)) :
    Followed r resolve xs (inRegion path) (Link.ofProperty r path p v)
      (fun depth es => Read.property resolve (Read.object r resolve depth) path p es)
      (PropertyBack r resolve p v) := by
  have hholds : ∀ es, Holds es (inRegion path) (filled xs) →
      Holds es (covers type p.isReference path) (filled xs) := by
    intro es hh
    have hsub := hh.sub fun k (hk : covers type p.isReference path k = true) =>
      inRegion_iff.2 (within_of_covers hk)
    rwa [List.filter_eq_self.2 fun x hx => h.inside x (mem_filled_iff.1 hx).1] at hsub
  rw [Link.ofProperty_single hs]
  refine ⟨h.tidy, fun x hx => inRegion_iff.2 (within_of_covers (h.inside x hx)), h.stored, h.below,
    fun depth es hh => ?_, fun depth es hh w? hw => ?_⟩
  · rw [Read.property_single hs]
    exact h.marks depth es (hholds es hh)
  · rw [Read.property_single hs] at hw
    exact .single hs (h.back depth es (hholds es hh) w? hw)

theorem of_id (hid : p.isId = true) (hp : EntityType.propertyViolation? p = none) :
    PropertyFollowed r resolve root path p v := by
  intro xs h
  obtain ⟨type, hs⟩ := Shape.isSingleScalar_iff.1
    ((EntityType.propertyViolation?_eq_none_iff.1 hp).1 hid).1
  obtain ⟨text, -, rfl⟩ := (Write.leaves_property_of_isId hid).1 h
  exact property hs (of_scalar (.inr ⟨_, rfl⟩))

theorem list_back {items : List Value} {back : String × Value → Option Value}
    (hs : p.shape = .list type)
    (hback : ∀ a ∈ indexed items, ElementBack r resolve type p.isReference a.2 (back a)) :
    PropertyBack r resolve p (.list items)
      (if ((indexed items).filterMap back).isEmpty then none
        else some (.list ((indexed items).filterMap back))) := by
  have hlen : items.length = ((indexed items).map back).length := by
    rw [List.length_map, ← List.length_map Prod.snd, Rewrite.map_snd_indexed]
  have hzip : items.zip ((indexed items).map back) =
      (indexed items).map fun a => (a.2, back a) := by
    rw [← List.zip_map', Rewrite.map_snd_indexed]
  have hlist : PropertyBack r resolve p (.list items) _ := .list hs hlen fun x hx => by
    rw [hzip] at hx
    obtain ⟨a, ha, rfl⟩ := List.mem_map.1 hx
    exact hback a ha
  rwa [List.filterMap_map] at hlist

theorem map_back {key : ScalarType} {entries : List (Value × Value)}
    {back : String × Value → Option Value} (hs : p.shape = .map key type)
    (htexts : ∀ e ∈ entries, ∃ text, key.keyText e.1 = .ok text)
    (hkey : ∀ a ∈ keyed key entries, back a ≠ none →
      key.decode (Utf8.encode a.1) = .ok (some (key.keyOf a.1)))
    (hback : ∀ a ∈ keyed key entries, ElementBack r resolve type p.isReference a.2 (back a)) :
    PropertyBack r resolve p (.map entries)
      (Read.mapOf ((keyed key entries).map fun a => (back a).map (key.keyOf a.1, ·))) := by
  have hlen : entries.length =
      ((keyed key entries).map fun a => (back a).map (key.keyOf a.1, ·)).length := by
    rw [List.length_map, keyed, List.length_map]
  have hzip : ∀ x ∈ entries.zip ((keyed key entries).map fun a => (back a).map (key.keyOf a.1, ·)),
      ∃ a ∈ keyed key entries, key.keyText x.1.1 = .ok a.1 ∧ x.1.2 = a.2 ∧
        x.2 = (back a).map (key.keyOf a.1, ·) := by
    intro x hx
    rw [keyed, List.map_map] at hx
    nth_rewrite 1 [← List.map_id entries] at hx
    rw [List.zip_map'] at hx
    obtain ⟨e, he, rfl⟩ := List.mem_map.1 hx
    obtain ⟨text, ht⟩ := htexts e he
    exact ⟨_, List.mem_map_of_mem he, by rw [id_eq, ht]; rfl, rfl, rfl⟩
  refine .map hs hlen (fun x hx e he => ?_) fun x hx => ?_
  · obtain ⟨a, ha, ht, -, h2⟩ := hzip x hx
    rw [h2] at he
    obtain ⟨w, hw, rfl⟩ := Option.map_eq_some_iff.1 he
    exact ⟨a.1, ht, hkey a ha (by simp [hw])⟩
  · obtain ⟨a, ha, -, h1, h2⟩ := hzip x hx
    rw [h1, h2, Option.map_map]
    have hvalue : (back a).map (Prod.snd ∘ (key.keyOf a.1, ·)) = back a := Option.map_id'
    rw [hvalue]
    exact hback a ha

variable (hid : p.isId = false)

include hid

theorem single (hs : p.shape = .single type)
    (h : ElementFollowed r resolve path type p.isReference v) :
    PropertyFollowed r resolve root path p v := fun xs hl =>
  property hs (h xs ((Write.leaves_property_single_iff hid hs).1 hl))

theorem list {items : List Value} (hs : p.shape = .list type)
    (hel : ∀ v ∈ items, ∀ path, path ≠ "" →
      ElementFollowed r resolve path type p.isReference v) :
    PropertyFollowed r resolve root path p (.list items) := by
  intro xs h
  have hleave := (Rewrite.leaves_list_iff hid hs).1 h
  have htell : Telling type p.isReference ((indexed items).map Prod.fst) := by
    rw [Rewrite.map_fst_indexed]
    exact telling_indexTexts_range _
  replace hel : ∀ a ∈ indexed items,
      ElementFollowed r resolve (Path.element path a.1) type p.isReference a.2 := by
    intro a ha
    refine hel a.2 ?_ _ (Path.element_ne_empty _ _)
    rw [← Rewrite.map_snd_indexed items]
    exact List.mem_map_of_mem ha
  rw [Link.ofProperty_list hs]
  refine of_elements htell hel hleave (fun depth es hh => ?_) fun depth es hh w? hw => ?_
  · exact Read.marks_property_list (elementKeys_kept htell hel hleave hh)
      (fun a ha => marks_of_mem_kept htell hel hleave hh ha) hs
  · obtain ⟨found, hfound, rfl⟩ := (Read.property_list_eq_ok_iff hs).1 hw
    rw [elementKeys_kept htell hel hleave hh, List.forall₂_map_left_iff] at hfound
    obtain ⟨back, hback, hread, hnone⟩ := exists_elementsBack htell hel hleave hh fun a ha => by
      obtain ⟨y, -, w, hw, -⟩ := Lists.exists_right_of_mem hfound ha
      exact ⟨w, hw⟩
    have heq := Lists.eq_map_of_forall₂ (f := fun a => (back a).map
      (Read.place (Path.element path a.1) (Path.elementStart path), ·)) hfound fun a ha y hy => by
        obtain ⟨w, hw, rfl⟩ := hy
        cases (hread a ha).symm.trans hw
        rfl
    rw [heq, Read.listOf_of_places ((Read.places_indexed path items).sublist
      (kept_sublist.map _)), filterMap_kept hnone]
    exact list_back hs hback

theorem map {key : ScalarType} {entries : List (Value × Value)} (hs : p.shape = .map key type)
    (hk : key.Separates (Read.isLeaf type p.isReference) (entries.map Prod.fst))
    (hel : ∀ e ∈ entries, ∀ path, path ≠ "" →
      ElementFollowed r resolve path type p.isReference e.2) :
    PropertyFollowed r resolve root path p (.map entries) := by
  intro xs h
  obtain ⟨htexts, hleave⟩ := (Rewrite.leaves_map_iff hid hs).1 h
  obtain ⟨htell, hfilled⟩ := hk.keyed htexts
  have hbracket : Read.isLeaf type p.isReference = false →
      ∀ a ∈ keyed key entries, ']' ∉ a.1.toList := fun hl a ha =>
    htell.no_bracket hl _ (List.mem_map_of_mem ha)
  replace hel : ∀ a ∈ keyed key entries,
      ElementFollowed r resolve (Path.element path a.1) type p.isReference a.2 := by
    intro a ha
    obtain ⟨e, he, rfl⟩ := List.mem_map.1 ha
    exact hel e he _ (Path.element_ne_empty _ _)
  rw [Link.ofProperty_map hs]
  refine of_elements htell hel hleave (fun depth es hh => ?_) fun depth es hh w? hw => ?_
  · exact Read.marks_property_map (elementKeys_kept htell hel hleave hh)
      (fun a ha => marks_of_mem_kept htell hel hleave hh ha) hs
      (fun a ha => hfilled a (mem_kept_iff.1 ha).1)
      (fun hl a ha => hbracket hl a (mem_kept_iff.1 ha).1)
      fun _ _ _ => .inr fun _ _ => Error.noConfusion
  · obtain ⟨found, hfound, rfl⟩ := (Read.property_map_eq_ok_iff hs).1 hw
    rw [elementKeys_kept htell hel hleave hh, List.forall₂_map_left_iff] at hfound
    replace hfound := Lists.forall₂_imp_mem hfound fun a ha y _ hy => by
      have hm := (mem_kept_iff.1 ha).1
      rw [Read.keyText_element fun hl => hbracket hl a hm] at hy
      exact Read.exists_of_entryValue (hfilled a hm) hy
    obtain ⟨back, hback, hread, hnone⟩ := exists_elementsBack htell hel hleave hh fun a ha => by
      obtain ⟨y, -, -, w, hw, -⟩ := Lists.exists_right_of_mem hfound ha
      exact ⟨w, hw⟩
    have heq := Lists.eq_map_of_forall₂ (f := fun a => (back a).map (key.keyOf a.1, ·)) hfound
      fun a ha y hy => by
        obtain ⟨-, w, hw, rfl⟩ := hy
        cases (hread a ha).symm.trans hw
        rfl
    have hall : Read.mapOf found =
        Read.mapOf ((keyed key entries).map fun a => (back a).map (key.keyOf a.1, ·)) := by
      rw [heq, Read.mapOf, Read.mapOf, List.filterMap_map, List.filterMap_map, filterMap_kept]
      intro a ha hk
      rw [Function.comp_apply, hnone a ha hk]
      rfl
    rw [hall]
    refine map_back hs htexts (fun a ha hne => ?_) hback
    have hkept : a ∈ kept r path type p.isReference (keyed key entries) := by
      by_contra hk
      exact hne (hnone a ha hk)
    obtain ⟨_, -, hkey, -⟩ := Lists.exists_right_of_mem hfound hkept
    exact hkey

end Property

/-- A property is read again if its parts are. References are followed on their own. -/
theorem of_parts {root : Bool} {p : Property} (hb : r.Built)
    (hp : EntityType.propertyViolation? p = none) (hpath : path ≠ "")
    (h : Separate r (.property p, v))
    (ih : ∀ type w, PartOf r (.element type, w) (.property p, v) → ∀ path, path ≠ "" →
      ElementFollowed r resolve path type false w) : PropertyFollowed r resolve root path p v := by
  by_cases hid : p.isId = true
  · exact of_id hid hp
  rw [Bool.not_eq_true] at hid
  have helement : ∀ type w, p.shape.type = type →
      (p.isReference = false → PartOf r (.element type, w) (.property p, v)) → ∀ path, path ≠ "" →
        ElementFollowed r resolve path type p.isReference w := by
    intro type w htype hpart path hpath
    cases href : p.isReference with
    | true =>
      obtain ⟨name, hname⟩ := (EntityType.propertyViolation?_eq_none_iff.1 hp).2.2.1 href
      rw [← htype, hname]
      exact referent hb hpath
    | false => exact ih type w (hpart href) path hpath
  intro xs hl
  cases hs : p.shape with
  | single type =>
    refine single hid hs (helement type v ?_ (fun hr => .single hid hr hs) path hpath) xs hl
    rw [hs]
    rfl
  | list type =>
    obtain ⟨items, rfl, -⟩ := (Write.leaves_property_list_iff hid hs).1 hl
    refine list hid hs (fun w hw => helement type w ?_ fun hr => .item hid hr hs hw) xs hl
    rw [hs]
    rfl
  | map key type =>
    obtain ⟨entries, rfl, -⟩ := (Write.leaves_property_map_iff hid hs).1 hl
    refine map hid hs (h p key type entries .refl hs)
      (fun e he => helement type e.2 ?_ fun hr => .value hid hr hs he) xs hl
    rw [hs]
    rfl

/-! ## Objects -/

section Object

variable {t : EntityType} {root : Bool} {base : String} {fields : List (String × Value)}

/-- What may be read for a field. -/
def FieldBack (r : Registry) (resolve : Resolver) (p : Property) (v? w? : Option Value) : Prop :=
  (∀ v, v? = some v → PropertyBack r resolve p v w?) ∧ (v? = none → w? = none)

/-- What is left for a field. -/
def leftAt (r : Registry) (root : Bool) (base : String) (fields : List (String × Value))
    (p : Property) : List (String × Bytes) :=
  (Fields.get? fields p.name).elim [] fun v =>
    Step.pairs (Write.property r root (Path.join base p.name) p v).trace

/-- What is left for a field is read again. -/
abbrev FieldFollowed (r : Registry) (resolve : Resolver) (root : Bool) (base : String)
    (fields : List (String × Value)) (p : Property) : Prop :=
  Followed r resolve (leftAt r root base fields p) (inRegion (Path.join base p.name))
    (Link.ofField r (Path.join base p.name) p (Fields.get? fields p.name))
    (fun depth es => Read.property resolve (Read.object r resolve depth) (Path.join base p.name) p
      es)
    (FieldBack r resolve p (Fields.get? fields p.name))

theorem field {p : Property} {ys : List (String × Bytes)} (hp : IsName p.name)
    (h : ∀ v, Fields.get? fields p.name = some v →
      PropertyFollowed r resolve root (Path.join base p.name) p v)
    (hl : LeavesAt r root (Path.join base p.name) p (Fields.get? fields p.name) ys) :
    FieldFollowed r resolve root base fields p ∧ ys = leftAt r root base fields p := by
  unfold FieldFollowed leftAt
  cases hv : Fields.get? fields p.name with
  | none =>
    rw [hv] at hl
    refine ⟨of_nothing (fun depth es hh => ?_) ⟨fun _ h => (nomatch h), fun _ => rfl⟩, hl⟩
    exact Read.property_eq_of_empty (Path.join_ne_empty hp.ne_empty) fun k hk =>
      hh k (inRegion_iff.2 hk)
  | some v =>
    rw [hv] at hl
    have hys : Step.pairs (Write.property r root (Path.join base p.name) p v).trace = ys := hl.2
    obtain ⟨htidy, hin, hstored, hbelow, hmarks, hback⟩ := h v hv ys hl
    rw [Option.elim_some, hys]
    refine ⟨⟨htidy, hin, hstored, hbelow, hmarks, fun depth es hh w? hw => ?_⟩, rfl⟩
    refine ⟨fun v' hv' => ?_, fun h => nomatch h⟩
    cases hv'
    exact hback depth es hh w? hw

theorem exists_fields {xs : List (String × Bytes)} (hn : ∀ p ∈ t.properties, IsName p.name)
    (h : ∀ p ∈ t.properties, ∀ v, Fields.get? fields p.name = some v →
      PropertyFollowed r resolve root (Path.join base p.name) p v)
    (hl : Leaves (Write.properties r root base fields t.properties) xs) :
    (∀ p ∈ t.properties, FieldFollowed r resolve root base fields p) ∧
      xs = t.properties.flatMap (leftAt r root base fields) := by
  obtain ⟨parts, hparts, rfl⟩ := Write.leaves_properties_iff.1 hl
  refine ⟨fun p hp => ?_, ?_⟩
  · obtain ⟨ys, -, hy⟩ := Lists.exists_right_of_mem hparts hp
    exact (field (hn p hp) (h p hp) hy).1
  · rw [Lists.eq_map_of_forall₂ hparts fun p hp ys hy => (field (hn p hp) (h p hp) hy).2]
    rfl

variable (hn : ∀ p ∈ t.properties, IsName p.name) (hu : (t.properties.map (·.name)).Nodup)
  {before : List (String × Bytes)} (hb : ∀ x ∈ before, x.1 = Path.hintOf base)
  (hf : ∀ p ∈ t.properties, FieldFollowed r resolve root base fields p)

variable (r t root base fields before) in
theorem filled_fields : filled (before ++ t.properties.flatMap (leftAt r root base fields)) =
    filled before ++ t.properties.flatMap fun p => filled (leftAt r root base fields p) := by
  rw [filled_append, filled_flatMap]

include hf in
theorem inRegion_of_filled : ∀ p ∈ t.properties, ∀ x ∈ filled (leftAt r root base fields p),
    inRegion (Path.join base p.name) x.1 = true := fun p hp x hx =>
  (hf p hp).inside x (mem_filled_iff.1 hx).1

variable (before) in
include hf in
theorem stored_fields : Link.Stored r (Link.ofFields r base t fields)
    (before ++ t.properties.flatMap (leftAt r root base fields)) := by
  refine Link.Stored.mono ?_ (List.sublist_append_right _ _)
  exact .flatMap fun p hp => (hf p hp).stored

include hn hu hf

include hb in
theorem below_fields : ∀ l ∈ Link.ofFields r base t fields,
    ∀ x ∈ before ++ t.properties.flatMap (leftAt r root base fields),
      Below l.path x.1 → x.1 ∈ (Link.ofFields r base t fields).map (·.path) := by
  intro l hl x hx hbelow
  obtain ⟨p, hp, hlp⟩ := List.mem_flatMap.1 hl
  obtain ⟨bs, hmem⟩ := (hf p hp).stored.exists_filled hlp
  have hlin := inRegion_iff.1 ((hf p hp).inside _ (mem_filled_iff.1 hmem).1)
  have hwithin : Within (Path.join base p.name) x.1 := hlin.trans hbelow.within
  rcases List.mem_append.1 hx with hx | hx
  · rw [hb x hx] at hwithin
    exact absurd hwithin (Path.not_within_join_hintOf (hn p hp))
  · refine Link.below_flatMap (apart_properties base hn hu) (fun p hp => (hf p hp).inside)
      (fun p k k' hk hbelow => ?_) (fun p hp => (hf p hp).stored) (fun p hp => (hf p hp).below)
      l hl x hx hbelow
    exact inRegion_iff.2 ((inRegion_iff.1 hk).trans hbelow.within)

omit hn hu in
/-- An object is read along its fields. -/
theorem marks_fields {es : Entries} {declared : String} {depth : Nat} (hs : t.Sound)
    (ht : Read.resolveType r base declared es = .ok t)
    (hh : ∀ p ∈ t.properties, Holds es (inRegion (Path.join base p.name))
      (filled (leftAt r root base fields p))) :
    Marks (TypesFound resolve) (Read.object r resolve (depth + 1) base declared es)
      ((Link.ofFields r base t fields).filterMap (Link.reference? r)) := by
  rw [Link.ofFields, List.filterMap_flatMap]
  refine Read.marks_object ht (fun p hp => (hf p hp).marks depth es (hh p hp)) fun p hp hbound => ?_
  obtain ⟨type, hshape⟩ := Shape.isSingleScalar_iff.1
    ((EntityType.propertyViolation?_eq_none_iff.1 (hs.property p hp)).2.1 hbound)
  cases hv : Fields.get? fields p.name with
  | none => rfl
  | some v =>
    rw [Link.ofField, Option.elim_some, Link.ofProperty_single hshape, Link.ofElement_scalar]
    rfl

omit hn hu in
theorem back_fields {es : Entries} {declared : String} {depth : Nat} {o : Object} (hr : r.Named)
    (ht : Read.resolveType r base declared es = .ok t)
    (hh : ∀ p ∈ t.properties, Holds es (inRegion (Path.join base p.name))
      (filled (leftAt r root base fields p)))
    (ho : (Read.object r resolve (depth + 1) base declared es).outcome = .ok o) :
    o.type = t.name ∧ ∀ p ∈ t.properties,
      FieldBack r resolve p (Fields.get? fields p.name) (o.get? p.name) := by
  obtain ⟨t', ht', htype, hfields⟩ := Read.fields_of_object hr.distinct ho
  cases ht.symm.trans ht'
  exact ⟨htype, fun p hp => (hf p hp).back depth es (hh p hp) _ (hfields p hp)⟩

end Object

theorem object_back {declared name : String} {fields : List (String × Value)} {t : EntityType}
    {o : Object} (ht : r.find? name = some t) (htype : o.type = name)
    (h : ∀ p ∈ t.properties, FieldBack r resolve p (Fields.get? fields p.name) (o.get? p.name)) :
    ElementBack r resolve (.entity declared) false (.object name fields) (some o.toValue) :=
  .object (o := ⟨name, fields⟩) ht htype (fun p hp v hv => (h p hp).1 v hv)
    fun p hp hv => (h p hp).2 hv

/-- An object inside another is read again if its fields are. -/
theorem nested {declared : String} (hb : r.Built) (hr : r.Named) (he : r.NoEmptyType)
    (hpath : path ≠ "")
    (ih : ∀ name fields t, v = .object name fields → r.find? name = some t →
      ∀ p ∈ t.properties, ∀ w, Fields.get? fields p.name = some w →
        PropertyFollowed r resolve false (Path.join path p.name) p w) :
    ElementFollowed r resolve path (.entity declared) false v := by
  intro xs h
  by_cases hv : v.isNull = true
  · rw [Value.eq_null_of_isNull hv] at h ⊢
    exact null hpath xs h
  obtain ⟨name, fields, t, ys, rfl, ht, ha, hy, rfl⟩ :=
    (Write.leaves_nested_iff (by simpa using hv)).1 h
  have hn := hr.isName name t ht
  have hu := hr.distinct name t ht
  obtain ⟨hf, rfl⟩ := exists_fields hn (ih name fields t rfl ht) hy
  have hhints : ∀ x ∈ Write.hints path name declared, x.1 = Path.hintOf path := fun x =>
    Write.fst_of_mem_hints
  have htidy := tidy_hints path declared (he name t ht)
  have hin := inRegion_of_filled hf
  have hfilled := filled_fields r t false path fields (Write.hints path name declared)
  rw [htidy.filled_eq] at hfilled
  have hstored := stored_fields (Write.hints path name declared) hf
  rw [Link.ofElement_nested ht]
  refine ⟨?_, fun x hx => (covers_nested_iff rfl).2 (below_of_mem_object hhints
    (fun p hp => (hf p hp).inside) hpath hx).within, hstored, below_fields hn hu hhints hf,
    fun depth es hh => ?_, fun depth es hh w? hw => ?_⟩
  · rw [hfilled]
    exact tidy_object hn hu hhints hin htidy fun p hp => (hf p hp).tidy
  · have hread : Read.valueAt resolve (Read.object r resolve depth) (.entity declared) false es
        path = if (es.extract path).size = 0 then pure none else (do
          let o ← Read.object r resolve depth path declared (es.extract path)
          pure (some o.toValue)) := rfl
    rw [hfilled] at hh
    rw [hread]
    split
    · next hnil =>
      rw [hstored.eq_nil (hfilled.trans ((size_extract_object hpath hin hh).1 hnil))]
      exact .pure none
    · rw [← List.append_nil (List.filterMap _ _)]
      refine Marks.bind ?_ fun _ _ => .pure _
      cases depth with
      | zero => exact .fail (.inr fun _ _ => Error.noConfusion) _
      | succ depth =>
        exact marks_fields hf (hb.sound ht).2 (resolveType_extract hpath hn hu hin hh ht ha)
          (holds_extract hpath hn hu hin hh)
  · have hw := Read.inner_eq_ok_iff.1 hw
    rw [hfilled] at hh
    split at hw
    · next hnil =>
      subst hw
      have habsent : Link.ofElement r path (.entity declared) false
          (Object.toValue ⟨name, fields⟩) = [] := by
        refine (Link.ofElement_nested ht).trans ?_
        exact hstored.eq_nil (hfilled.trans ((size_extract_object hpath hin hh).1 hnil))
      exact .absent habsent
    · obtain ⟨o, ho, rfl⟩ := hw
      cases depth with
      | zero => cases ho
      | succ depth =>
        obtain ⟨htype, hfields⟩ := back_fields hf hr
          (resolveType_extract hpath hn hu hin hh ht ha) (holds_extract hpath hn hu hin hh) ho
        exact object_back ht (htype.trans (hb.sound ht).1) hfields

/-! ## Values -/

/-- How what is left for a value in its role is read again. -/
def At (r : Registry) (resolve : Resolver) : Role × Value → Prop
  | (.element type, v) => ∀ path, path ≠ "" → ElementFollowed r resolve path type false v
  | (.property p, v) => (∃ name t, r.find? name = some t ∧ p ∈ t.properties) → ∀ root path,
      path ≠ "" → PropertyFollowed r resolve root path p v

/-- **What is left for a value is read again, and the references in it are resolved in their
order.** -/
theorem at_of_separate (hb : r.Built) (hr : r.Named) (he : r.NoEmptyType) {whole : Role × Value}
    (h : Separate r whole) : At r resolve whole := by
  have hwf : WellFounded (PartOf r) := PartOf.wellFounded
  induction whole using hwf.induction with
  | _ whole ih =>
    have hparts : ∀ part, PartOf r part whole → At r resolve part := fun part hp =>
      ih part hp (h.of_partOf hp)
    match whole with
    | (.element (.scalar type), v) => exact fun path _ => scalar
    | (.element (.entity declared), v) =>
      intro path hpath
      refine nested hb hr he hpath fun name fields t heq ht p hp w hw => ?_
      subst heq
      exact hparts _ (.field ht hp hw) ⟨name, t, ht, hp⟩ false _ (Path.join_ne_empty_of_base hpath)
    | (.property p, v) =>
      rintro ⟨name, t, ht, hp⟩ root path hpath
      exact of_parts hb ((hb.sound ht).2.property p hp) hpath h fun type w hw => hparts _ hw

/-- The record of an object is read again. -/
theorem record (hb : r.Built) (hr : r.Named) (he : r.NoEmptyType) {ix : Indexes} {o : Object}
    (hk : Separate r o.whole) {record : Record} (h : (r.write ix o).1 = .ok record) {type : String}
    (ha : r.isAssignable o.type type = true) :
    ∃ xs, record.entries.toList = filled xs ∧ Tidy (filled xs) ∧ Link.Stored r (o.links r) xs ∧
      (∀ l ∈ o.links r, ∀ x ∈ xs, Below l.path x.1 → x.1 ∈ (o.links r).map (·.path)) ∧
      Marks (TypesFound resolve) (r.read resolve type record.entries)
        ((o.links r).filterMap (Link.reference? r)) ∧
      ∀ found, (r.read resolve type record.entries).outcome = .ok found →
        ∃ o', found = some o' ∧
          ElementBack r resolve (.entity o.type) false o.toValue (some o'.toValue) := by
  obtain ⟨t, xs, ht, hl, hes⟩ := Write.write_entries_iff.1 ⟨record, h, rfl⟩
  obtain ⟨ys, hy, rfl⟩ := Write.leaves_outline_iff.1 hl
  have hn := hr.isName _ t ht
  have hu := hr.distinct _ t ht
  have hfollowed : ∀ p ∈ t.properties, ∀ v, Fields.get? o.fields p.name = some v →
      PropertyFollowed r resolve true (Path.join "" p.name) p v := fun p hp v hv =>
    at_of_separate hb hr he (hk.of_partOf (.field ht hp hv)) ⟨_, t, ht, hp⟩ true _
      (Path.join_ne_empty (hn p hp).ne_empty)
  obtain ⟨hf, rfl⟩ := exists_fields hn hfollowed hy
  have hhint : ∀ x ∈ [(Path.hint, Utf8.encode o.type)], x.1 = Path.hintOf "" := by simp
  have hsingle : Tidy [(Path.hint, Utf8.encode o.type)] :=
    .singleton (mt Utf8.encode_eq_nil_iff.1 (he _ t ht))
  have hin := inRegion_of_filled hf
  have hfilled := filled_fields r t true "" o.fields [(Path.hint, Utf8.encode o.type)]
  rw [hsingle.filled_eq] at hfilled
  have htidy := tidy_object hn hu hhint hin hsingle fun p hp => (hf p hp).tidy
  rw [← hfilled] at htidy
  have hlist : record.entries.toList = filled ([(Path.hint, Utf8.encode o.type)] ++
      t.properties.flatMap (leftAt r true "" o.fields)) := by
    rw [hes]
    exact toList_putAll_of_tidy htidy fun x hx =>
      key_ne_empty_of_object hn hhint (fun p hp => (hf p hp).inside) hx
  have hholds : Holds record.entries (fun _ => true) ([(Path.hint, Utf8.encode o.type)] ++
      t.properties.flatMap fun p => filled (leftAt r true "" o.fields p)) := by
    rw [Holds, List.filter_true, hlist, hfilled]
  have hfields := holds_fields hn hu hhint hin hholds fun _ _ _ => rfl
  have htype : Read.resolveType r "" type record.entries = .ok t :=
    Read.resolveType_of_hint (hholds.get? List.mem_cons_self) ht ha
  have hlinks : o.links r = Link.ofFields r "" t o.fields := Link.ofElement_nested ht
  rw [hlinks]
  refine ⟨_, hlist, htidy, stored_fields _ hf, below_fields hn hu hhint hf, ?_,
    fun found hfound => ?_⟩
  · rw [Registry.read, if_neg (Registry.size_ne_zero_of_write he h), ← List.append_nil
      (List.filterMap _ _)]
    exact (marks_fields hf (hb.sound ht).2 htype hfields).bind fun _ _ => .pure _
  · rw [Registry.read, if_neg (Registry.size_ne_zero_of_write he h)] at hfound
    obtain ⟨o', ho, hfound⟩ := Traced.outcome_bind_eq_ok_iff.1 hfound
    cases hfound
    obtain ⟨hname, hback⟩ := back_fields hf hr htype hfields ho
    exact ⟨o', rfl, object_back ht (hname.trans (hb.sound ht).1) hback⟩

end Followed

/-- **References are stored as pointers, and each of them is resolved once**, in their order:
at its own path, with the id and the keyspace of the object it refers to. A read that fails has
resolved the first of them. What is read is the object that was written, without the references
that lead nowhere. -/
theorem resolved_once {r : Registry} (hb : r.Built) (hr : r.Named) (he : r.NoEmptyType)
    {ix : Indexes} {o : Object} (hk : Separate r o.whole) {record : Record}
    (h : (r.write ix o).1 = .ok record) (resolve : Resolver) :
    ((o.links r).map (·.path)).Nodup ∧
    (∀ l ∈ o.links r, ∃ reference, l.reference? r = some reference ∧ reference.id ≠ "" ∧
      (∀ xs, Leaves (Write.element r l.path (.entity l.declared) true l.target.toValue) xs ↔
        xs = [(l.path, Utf8.encode (Path.entityKey reference.keyspace reference.id))]) ∧
      record.entries.get? l.path =
        some (Utf8.encode (Path.entityKey reference.keyspace reference.id)) ∧
      ∀ k, Below l.path k → record.entries.get? k ≠ none → k ∈ (o.links r).map (·.path)) ∧
    (r.read resolve o.type record.entries).trace <+: (o.links r).filterMap (Link.reference? r) ∧
    ∀ found, (r.read resolve o.type record.entries).outcome = .ok found →
      (r.read resolve o.type record.entries).trace = (o.links r).filterMap (Link.reference? r) ∧
      ∃ o', found = some o' ∧
        ElementBack r resolve (.entity o.type) false o.toValue (some o'.toValue) := by
  obtain ⟨t, -, ht, -⟩ := Write.write_entries_iff.1 ⟨record, h, rfl⟩
  obtain ⟨xs, hlist, htidy, hstored, hbelow, hmarks, hback⟩ :=
    Followed.record hb hr he hk h (hb.isAssignable_self ht)
  refine ⟨hstored.nodup htidy, fun l hl => ?_, hmarks.early, fun found hfound =>
    ⟨hmarks.all _ hfound, hback found hfound⟩⟩
  obtain ⟨reference, href, hid, hmem⟩ := hstored.mem_filled hl
  refine ⟨reference, href, hid, fun ys => ?_, ?_, fun k hk hne => ?_⟩
  · rw [Write.leaves_reference_iff rfl]
    simp only [Link.pointer_eq_ok_iff l.declared]
    constructor
    · rintro ⟨_, _, _, ⟨⟩, ⟨reference', href', -, rfl⟩, rfl⟩
      cases href.symm.trans href'
      rfl
    · rintro rfl
      exact ⟨_, _, _, rfl, ⟨reference, href, hid, rfl⟩, rfl⟩
  · rw [Entries.get?_eq_some_iff, hlist]
    exact hmem
  · obtain ⟨bs, hbs⟩ := Option.ne_none_iff_exists'.1 hne
    rw [Entries.get?_eq_some_iff, hlist] at hbs
    exact hbelow l hl _ (mem_filled_iff.1 hbs).1 hk

/-! ## Tours -/

namespace Tours

/-- The name by which a town or a guide is known. -/
def name : Property := { name := "name", shape := .single (.scalar .text), isId := true }

/-- Towns are known by their names. -/
def town : EntityType := { name := "Town", properties := [name] }

/-- So are guides. -/
def guide : EntityType := { name := "Guide", properties := [name] }

/-- Where a tour starts. -/
def start : Property := { name := "start", shape := .single (.entity "Town"), isReference := true }

/-- The towns on the way. -/
def stops : Property := { name := "stops", shape := .list (.entity "Town"), isReference := true }

/-- The guides by the languages they speak. -/
def guides : Property :=
  { name := "guides", shape := .map .text (.entity "Guide"), isReference := true }

/-- Tours refer to towns and guides. -/
def tour : EntityType := { name := "Tour", properties := [start, stops, guides] }

/-- The registry of tours. -/
def tours : Registry := ⟨[("Guide", guide), ("Tour", tour), ("Town", town)]⟩

theorem built_tours : tours.Built :=
  .register (.register (.register .empty (t := town) (by rfl)) (t := tour) (by rfl)) (t := guide)
    (by rfl)

theorem named_tours : tours.Named := .of_types (by decide)

theorem noEmptyType_tours : tours.NoEmptyType := .of_types (by decide)

theorem mem_of_find? {s : String} {t : EntityType} (ht : tours.find? s = some t) {p : Property}
    (hp : p ∈ t.properties) : p ∈ [name, start, stops, guides] := by
  have htypes : ∀ e ∈ tours.types, ∀ p ∈ e.2.properties, p ∈ [name, start, stops, guides] := by
    decide
  exact htypes _ (Registry.mem_types_of_find? ht) p hp

/-- An object that is known by its name. -/
def known (type s : String) : Value := .object type [("name", .text s)]

/-- A tour that calls at a town with a colon in its name. -/
def grand : Object where
  type := "Tour"
  fields := [("start", known "Town" "Ulm"),
    ("stops", .list [known "Town" "A:B", .null, known "Town" "Ulm"]),
    ("guides", .map [(.text "en", known "Guide" "Ada")])]

/-- What a tour refers to is no part of it. -/
theorem get?_of_occurs {o : Object} {p : Property} {v : Value}
    (h : Occurs tours (.property p, v) o.whole) :
    p ∈ [name, start, stops, guides] ∧ o.get? p.name = some v := by
  obtain ⟨part, hpart, hlast⟩ := h.cases_tail.resolve_left fun h => nomatch h
  cases hlast with
  | @field _ _ _ t q w ht hq hw =>
    have hq := mem_of_find? ht hq
    obtain heq | ⟨_, -, hstep⟩ := hpart.cases_tail
    · cases heq
      exact ⟨hq, hw⟩
    · have hwhole : ∀ q ∈ [name, start, stops, guides], q.isId = true ∨ q.isReference = true := by
        decide
      cases hstep <;> simpa [*] using hwhole q hq

/-- Tours are told apart by the languages of their guides. -/
theorem separate_of_guides {o : Object} (h : ∀ entries, o.get? "guides" = some (.map entries) →
    ScalarType.text.Separates true (entries.map Prod.fst)) : Separate tours o.whole := by
  intro p key type entries ho hs
  obtain ⟨hp, hv⟩ := get?_of_occurs ho
  simp only [List.mem_cons, List.not_mem_nil, or_false] at hp
  obtain rfl | rfl | rfl | rfl := hp <;> cases hs
  exact h entries hv

theorem separate_grand : Separate tours grand.whole := by
  refine separate_of_guides fun entries hv => ?_
  cases hv
  refine ⟨List.nodup_singleton _, fun k hk => ?_, fun hl => nomatch hl⟩
  rw [List.mem_singleton.1 hk, keyText_text]
  decide

/-- A resolver that finds towns, but no guides. -/
def townsOnly : Resolver := fun reference =>
  .ok (if reference.type = "Town" then some ⟨"Town", [("name", .text reference.id)]⟩ else none)

theorem reference?_links_grand : (grand.links tours).filterMap (Link.reference? tours) =
    [⟨"Ulm", "Town", "Town"⟩, ⟨"A:B", "Town", "Town"⟩, ⟨"Ulm", "Town", "Town"⟩,
      ⟨"Ada", "Guide", "Guide"⟩] := by
  decide +kernel

theorem reads_grand : ∃ record, (tours.write {} grand).1 = .ok record ∧
    ∃ found, (tours.read townsOnly "Tour" record.entries).outcome = .ok found := by
  obtain ⟨found, h⟩ : ∃ found, ((tours.write {} grand).1 >>= fun record =>
      (tours.read townsOnly "Tour" record.entries).outcome) = .ok found :=
    Outcome.exists_of_isOk (by decide +kernel)
  obtain ⟨record, hw, hread⟩ := Outcome.bind_eq_ok_iff.1 h
  exact ⟨record, hw, found, hread⟩

/-- The tour is read again, after its towns and its guide were looked up, one after the other. -/
theorem read_grand : ∃ record o', (tours.write {} grand).1 = .ok record ∧
    (tours.read townsOnly "Tour" record.entries).outcome = .ok (some o') ∧
    (tours.read townsOnly "Tour" record.entries).trace =
      [⟨"Ulm", "Town", "Town"⟩, ⟨"A:B", "Town", "Town"⟩, ⟨"Ulm", "Town", "Town"⟩,
        ⟨"Ada", "Guide", "Guide"⟩] ∧
    ElementBack tours townsOnly (.entity "Tour") false grand.toValue (some o'.toValue) := by
  obtain ⟨record, hw, found, hread⟩ := reads_grand
  obtain ⟨-, -, -, hback⟩ := resolved_once built_tours named_tours noEmptyType_tours
    separate_grand hw townsOnly
  obtain ⟨htrace, o', rfl, hgrand⟩ := hback found hread
  rw [reference?_links_grand] at htrace
  exact ⟨record, o', hw, hread, htrace, hgrand⟩

end Tours

end FlatGraph
