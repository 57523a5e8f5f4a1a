import FlatGraph.Proofs.Convert.Legible
import FlatGraph.Proofs.Convert.Links

/-!
# Values that refer to objects

Where keys tell the entries of all maps apart (`Separate`), what the walk over a value leaves can be
read again, and the reader comes by the references among it in the order in which they were written.
`Followed` says this of what is left in one region of a record. It is shown here for leaves and
for elements of lists and maps; of elements of which nothing is stored, the reader does not know
(`kept`), but these refer to nothing.

What is read for a value is the same value, without the references that lead nowhere
(`ElementBack`). This says nothing of scalars: for these see `read_write`.
-/

namespace FlatGraph

open FlatGraph.Path (Below Within)
open Rewrite (ElementsLeave indexed keyed)
open Traced (Marks)
open Write (Leaves)

variable {r : Registry} {resolve : Resolver}

/-! ## Keys -/

/-- The texts of the keys of a map tell its entries apart. -/
structure ScalarType.Separates (key : ScalarType) (leaf : Bool) (ks : List Value) : Prop where
  distinct : (ks.map key.keyText).Nodup
  filled : ∀ k ∈ ks, key.keyText k ≠ .ok ""
  no_bracket : leaf = false → ∀ k ∈ ks, ∀ text, key.keyText k = .ok text → ']' ∉ text.toList

/-- The key that a text is read as, if it is one. -/
def ScalarType.keyOf (key : ScalarType) (text : String) : Value :=
  (key.decode (Utf8.encode text)).toOption.join.getD .null

/-- The keys of all maps in a value tell the entries apart. -/
def Separate (r : Registry) (whole : Role × Value) : Prop :=
  ∀ p key type entries, Occurs r (.property p, .map entries) whole → p.shape = .map key type →
    key.Separates (Read.isLeaf type p.isReference) (entries.map Prod.fst)

theorem Separate.of_partOf {part whole : Role × Value} (h : Separate r whole)
    (hp : PartOf r part whole) : Separate r part :=
  fun p key type entries ho => h p key type entries (ho.tail hp)

section Keyed

variable {key : ScalarType} {type : TypeRef} {reference : Bool} {entries : List (Value × Value)}
  (h : key.Separates (Read.isLeaf type reference) (entries.map Prod.fst))
  (htexts : ∀ e ∈ entries, ∃ text, key.keyText e.1 = .ok text)

include h htexts

/-- The texts that are written for the keys tell the entries apart, and none of them is empty. -/
theorem ScalarType.Separates.keyed :
    Telling type reference ((keyed key entries).map Prod.fst) ∧
      ∀ a ∈ keyed key entries, a.1 ≠ "" := by
  refine ⟨?_, fun a ha hempty => ?_⟩
  · rw [Rewrite.keyed, List.map_map]
    refine ScalarType.TellsApart.telling ⟨h.distinct, h.no_bracket⟩ fun e he => ?_
    obtain ⟨text, ht⟩ := htexts e he
    rw [ht]
    exact congrArg Except.ok (by simp [ht, Except.toOption])
  · obtain ⟨e, he, ht, -⟩ := exists_of_mem_keyed htexts ha
    exact h.filled e.1 (List.mem_map_of_mem he) (hempty ▸ ht)

end Keyed

/-! ## What is read back -/

mutual

/-- What may be read for a value of a declared type that was written: references are those that are
found, in the same places. -/
inductive ElementBack (r : Registry) (resolve : Resolver) :
    TypeRef → Bool → Value → Option Value → Prop
  | scalar {type : ScalarType} {reference : Bool} {v : Value} {w? : Option Value} :
      ElementBack r resolve (.scalar type) reference v w?
  | null {declared : String} {reference : Bool} :
      ElementBack r resolve (.entity declared) reference .null none
  | referent {declared : String} {target : Object} {reference : Reference} {x : Option Object}
      (href : r.reference? declared target = some reference) (hx : resolve reference = .ok x) :
      ElementBack r resolve (.entity declared) true target.toValue (x.map Object.toValue)
  | object {declared : String} {o o' : Object} {t : EntityType} (ht : r.find? o.type = some t)
      (htype : o'.type = o.type)
      (hset : ∀ p ∈ t.properties, ∀ v, o.get? p.name = some v →
        PropertyBack r resolve p v (o'.get? p.name))
      (hunset : ∀ p ∈ t.properties, o.get? p.name = none → o'.get? p.name = none) :
      ElementBack r resolve (.entity declared) false o.toValue (some o'.toValue)
  /-- Objects of which nothing is stored get lost, but they refer to nothing. -/
  | absent {declared path : String} {o : Object}
      (h : Link.ofElement r path (.entity declared) false o.toValue = []) :
      ElementBack r resolve (.entity declared) false o.toValue none

/-- What may be read for the value of a property that was written. In a list or a map, what is not
found is left out. -/
inductive PropertyBack (r : Registry) (resolve : Resolver) :
    Property → Value → Option Value → Prop
  | single {p : Property} {type : TypeRef} {v : Value} {w? : Option Value}
      (hs : p.shape = .single type) (h : ElementBack r resolve type p.isReference v w?) :
      PropertyBack r resolve p v w?
  | list {p : Property} {type : TypeRef} {items : List Value} {found : List (Option Value)}
      (hs : p.shape = .list type) (hl : items.length = found.length)
      (h : ∀ x ∈ items.zip found, ElementBack r resolve type p.isReference x.1 x.2) :
      PropertyBack r resolve p (.list items)
        (if (found.filterMap id).isEmpty then none else some (.list (found.filterMap id)))
  | map {p : Property} {key : ScalarType} {type : TypeRef} {entries : List (Value × Value)}
      {found : List (Option (Value × Value))} (hs : p.shape = .map key type)
      (hl : entries.length = found.length)
      (hk : ∀ x ∈ entries.zip found, ∀ e ∈ x.2, ∃ text, key.keyText x.1.1 = .ok text ∧
        key.decode (Utf8.encode text) = .ok (some e.1))
      (h : ∀ x ∈ entries.zip found,
        ElementBack r resolve type p.isReference x.1.2 (x.2.map Prod.snd)) :
      PropertyBack r resolve p (.map entries) (Read.mapOf found)

end

/-! ## Readings -/

/-- The types of all objects were found: the error is about something else, or it is that of a
reference. -/
def TypesFound (resolve : Resolver) (e : Error) : Prop :=
  (∃ reference, resolve reference = .error e) ∨ ∀ type path, e ≠ .typeResolution type path

namespace Read

variable {P : Error → Prop} {nested : Nested} {path declared : String} {es : Entries}
  {p : Property} {type : TypeRef} {as : List (String × Value)}
  {marks : String × Value → List Reference}

theorem exists_of_decode_eq_error {raw : Bytes} {type : ScalarType} {e : Error}
    (h : decode path raw type = .error e) : ∃ raw source, e = .conversion path raw source := by
  unfold decode at h
  cases hd : type.decode raw with
  | ok v => simp [hd, Except.mapError] at h
  | error source =>
    rw [hd] at h
    cases h
    exact ⟨_, _, rfl⟩

/-- Where a record holds nothing, there is no value. -/
theorem valueAt_eq_of_empty {reference : Bool} (hp : path ≠ "")
    (h : ∀ k, covers type reference path k = true → es.get? k = none) :
    valueAt resolve nested type reference es path = pure none := by
  rcases isLeaf_or_nested type reference with hl | ⟨name, rfl, rfl⟩
  · rw [valueAt_of_isLeaf hl, h path ((covers_leaf_iff hl).2 rfl)]
  · refine if_pos ((Entries.size_extract_eq_zero_iff hp).2 fun k hk => ?_)
    exact h k ((covers_nested_iff rfl).2 hk.within)

/-- The places of the items of a list are in order. -/
theorem places_indexed (path : String) (items : List Value) :
    ((indexed items).map fun a =>
      place (Path.element path a.1) (Path.elementStart path)).Pairwise (· ≤ ·) := by
  have hplaces : ((indexed items).map fun a =>
        place (Path.element path a.1) (Path.elementStart path)) =
      (List.range' 0 items.length).map (min · Number.greatestWord) := by
    rw [← List.zipIdx_map_snd 0 items, List.map_map, indexed, List.map_map]
    exact List.map_congr_left fun v _ => place_element path v.2
  rw [hplaces, List.pairwise_map]
  exact List.pairwise_le_range'.imp fun h => min_le_min_right _ h

/-- Values that are found in the order of their places are listed in this order. -/
theorem listOf_of_places {α : Type} {as : List α} {place : α → Nat} {value : α → Option Value}
    (h : (as.map place).Pairwise (· ≤ ·)) :
    listOf (as.map fun a => (value a).map (place a, ·)) =
      if (as.filterMap value).isEmpty then none else some (.list (as.filterMap value)) := by
  have hfound : (as.map fun a => (value a).map (place a, ·)).filterMap id =
      as.filterMap fun a => (value a).map (place a, ·) := by
    rw [List.filterMap_map]
    rfl
  have hvalues : (as.filterMap fun a => (value a).map (place a, ·)).map Prod.snd =
      as.filterMap value := by
    rw [List.map_filterMap]
    refine List.filterMap_congr fun a _ => ?_
    cases value a <;> rfl
  have hsorted : ((as.filterMap fun a => (value a).map (place a, ·)).map Prod.fst).Pairwise
      (· ≤ ·) := by
    rw [List.pairwise_map] at h ⊢
    refine h.filterMap _ fun a b hab x hx y hy => ?_
    obtain ⟨_, -, rfl⟩ := Option.map_eq_some_iff.1 hx
    obtain ⟨_, -, rfl⟩ := Option.map_eq_some_iff.1 hy
    exact hab
  rw [listOf, hfound, inOrder_of_places hsorted, hvalues, ← hvalues, List.isEmpty_map]

/-- A key text that is not empty is read as a key. -/
theorem exists_of_entryValue {text : String} {key : ScalarType} {value : Reading (Option Value)}
    {y : Option (Value × Value)} (ht : text ≠ "")
    (h : (entryValue path (some text) key value).outcome = .ok y) :
    key.decode (Utf8.encode text) = .ok (some (key.keyOf text)) ∧
      ∃ w, value.outcome = .ok w ∧ y = w.map (key.keyOf text, ·) := by
  rcases entryValue_eq_ok_iff.1 h with ⟨hd, -⟩ | ⟨_, k, w, ⟨⟩, hd, hw, rfl⟩
  · have hempty := ScalarType.decode_eq_none_iff.1 (hd text rfl)
    exact absurd (Utf8.encode_eq_nil_iff.1 hempty) ht
  · have hk : key.keyOf text = k := by
      rw [ScalarType.keyOf, hd]
      rfl
    rw [hk]
    exact ⟨hd, w, hw, rfl⟩

theorem marks_entryValue {text : String} {key : ScalarType} {value : Reading (Option Value)}
    {marks : List Reference} (ht : text ≠ "")
    (herror : ∀ path raw source, P (.conversion path raw source)) (h : Marks P value marks) :
    Marks P (entryValue path (some text) key value) marks := by
  have hdecode : ∀ e, decodeKey path text key = .error e → P e := by
    intro e he
    obtain ⟨raw, source, rfl⟩ := exists_of_decode_eq_error he
    exact herror _ _ _
  unfold entryValue
  rw [← List.nil_append marks]
  refine (Marks.liftM hdecode).bind fun k? hk => ?_
  cases k? with
  | none =>
    have hempty := ScalarType.decode_eq_none_iff.1 (decode_eq_ok_iff.1 hk)
    exact absurd (Utf8.encode_eq_nil_iff.1 hempty) ht
  | some k =>
    rw [← List.append_nil marks]
    exact h.bind fun v _ => .pure _

section Elements

variable (hkeys : elementKeys type p.isReference es path =
    as.map fun a => Path.element path a.1)
  (h : ∀ a ∈ as, Marks P
    (valueAt resolve nested type p.isReference es (Path.element path a.1)) (marks a))

include hkeys h

theorem marks_property_list (hs : p.shape = .list type) :
    Marks P (property resolve nested path p es) (as.flatMap marks) := by
  unfold property
  rw [hs, ← List.append_nil (as.flatMap marks)]
  simp only [elements_eq, hkeys, List.mapM_map]
  exact (Marks.mapM fun a ha => (h a ha).map _).bind fun found _ => .pure _

theorem marks_property_map {key : ScalarType} (hs : p.shape = .map key type)
    (hfilled : ∀ a ∈ as, a.1 ≠ "")
    (hbracket : isLeaf type p.isReference = false → ∀ a ∈ as, ']' ∉ a.1.toList)
    (herror : ∀ path raw source, P (.conversion path raw source)) :
    Marks P (property resolve nested path p es) (as.flatMap marks) := by
  unfold property
  rw [hs, ← List.append_nil (as.flatMap marks)]
  simp only [mapEntries_eq, hkeys, List.mapM_map]
  refine (Marks.mapM fun a ha => ?_).bind fun found _ => .pure _
  rw [Function.comp_apply, keyText_element fun hl => hbracket hl a ha]
  exact marks_entryValue (hfilled a ha) herror (h a ha)

end Elements

/-- An object is read along its properties. Those that are read first refer to nothing. -/
theorem marks_object {depth : Nat} {t : EntityType} {marks : Property → List Reference}
    (ht : resolveType r path declared es = .ok t)
    (h : ∀ p ∈ t.properties, Marks P
      (property resolve (object r resolve depth) (Path.join path p.name) p es) (marks p))
    (hfirst : ∀ p ∈ t.properties, p.isConstructorBound = true → marks p = []) :
    Marks P (object r resolve (depth + 1) path declared es) (t.properties.flatMap marks) := by
  have horder : (order t).flatMap marks = t.properties.flatMap marks := by
    have hnil : (t.properties.filter (·.isConstructorBound)).flatMap marks = [] := by
      rw [List.flatMap_eq_nil_iff]
      intro p hp
      exact hfirst p (List.mem_filter.1 hp).1 (List.mem_filter.1 hp).2
    rw [order, List.flatMap_append, hnil, List.nil_append]
    refine Lists.flatMap_filter_of_nil fun p hp hbound => hfirst p hp ?_
    simpa using hbound
  have hall : ∀ p ∈ order t, Marks P (do
      pure (p.name, ← property resolve (object r resolve depth) (Path.join path p.name) p es))
      (marks p) := by
    intro p hp
    rw [← List.append_nil (marks p)]
    exact (h p ((List.filter_append_perm _ _).mem_iff.1 hp)).bind fun v _ => .pure _
  rw [object, ht, ← horder, ← List.append_nil ((order t).flatMap marks)]
  exact (Marks.mapM hall).bind fun found _ => .pure _

end Read

/-! ## What is left -/

/-- What a walk leaves is read again, and the references among it are resolved in their order. -/
structure Followed (r : Registry) (resolve : Resolver) (xs : List (String × Bytes))
    (region : String → Bool) (links : List Link)
    (read : Nat → Entries → Reading (Option Value)) (back : Option Value → Prop) : Prop where
  tidy : Tidy (filled xs)
  inside : ∀ x ∈ xs, region x.1 = true
  stored : Link.Stored r links xs
  below : ∀ l ∈ links, ∀ x ∈ xs, Below l.path x.1 → x.1 ∈ links.map (·.path)
  marks : ∀ depth es, Holds es region (filled xs) →
    Marks (TypesFound resolve) (read depth es) (links.filterMap (Link.reference? r))
  back : ∀ depth es, Holds es region (filled xs) → ∀ w?, (read depth es).outcome = .ok w? →
    back w?

/-- What is left for values of a declared type is read again. -/
abbrev ElementFollowed (r : Registry) (resolve : Resolver) (path : String) (type : TypeRef)
    (reference : Bool) (v : Value) : Prop :=
  ∀ xs, Leaves (Write.element r path type reference v) xs →
    Followed r resolve xs (covers type reference path) (Link.ofElement r path type reference v)
      (fun depth es => Read.valueAt resolve (Read.object r resolve depth) type reference es path)
      (ElementBack r resolve type reference v)

/-- What is left for values of properties is read again. -/
abbrev PropertyFollowed (r : Registry) (resolve : Resolver) (root : Bool) (path : String)
    (p : Property) (v : Value) : Prop :=
  ∀ xs, Leaves (Write.property r root path p v) xs →
    Followed r resolve xs (inRegion path) (Link.ofProperty r path p v)
      (fun depth es => Read.property resolve (Read.object r resolve depth) path p es)
      (PropertyBack r resolve p v)

namespace Followed

variable {path : String} {reference : Bool} {v : Value} {xs : List (String × Bytes)}

/-! ## Leaves -/

/-- Where nothing is left, nothing is read. -/
theorem of_nothing {region : String → Bool} {read : Nat → Entries → Reading (Option Value)}
    {back : Option Value → Prop}
    (hread : ∀ depth (es : Entries), (∀ k, region k = true → es.get? k = none) →
      read depth es = pure none) (hback : back none) :
    Followed r resolve [] region [] read back := by
  have hnone : ∀ depth es, Holds es region (filled []) → read depth es = pure none :=
    fun depth es hh => hread depth es fun k hk => hh.get?_eq_none hk fun _ h => nomatch h
  refine ⟨.nil, fun _ h => (nomatch h), .nil, fun _ h => (nomatch h), fun depth es hh => ?_,
    fun depth es hh w? hw => ?_⟩
  · rw [hnone depth es hh]
    exact .pure none
  · rw [hnone depth es hh] at hw
    cases hw
    exact hback

/-- A scalar refers to nothing. -/
theorem of_scalar {type : ScalarType} (hxs : xs = [] ∨ ∃ bs, xs = [(path, bs)]) :
    Followed r resolve xs (covers (.scalar type) reference path)
      (Link.ofElement r path (.scalar type) reference v)
      (fun depth es =>
        Read.valueAt resolve (Read.object r resolve depth) (.scalar type) reference es path)
      (ElementBack r resolve (.scalar type) reference v) := by
  have hl : Read.isLeaf (.scalar type) reference = true := by cases reference <;> rfl
  rw [Link.ofElement_scalar]
  refine ⟨?_, ?_, .nil, fun _ h => (nomatch h), fun depth es _ => ?_, fun _ _ _ _ _ => .scalar⟩
  · rcases hxs with rfl | ⟨bs, rfl⟩
    · exact .nil
    · exact tidy_filled_singleton _
  · rcases hxs with rfl | ⟨bs, rfl⟩
    · exact fun x hx => nomatch hx
    · intro x hx
      rw [List.mem_singleton.1 hx]
      exact (covers_leaf_iff hl).2 rfl
  · rw [Read.valueAt_of_isLeaf hl]
    cases es.get? path with
    | none => exact .pure none
    | some raw =>
      refine .liftM fun e he => .inr fun name path' => ?_
      obtain ⟨raw, source, rfl⟩ := Read.exists_of_decode_eq_error he
      exact Error.noConfusion

theorem scalar {type : ScalarType} : ElementFollowed r resolve path (.scalar type) reference v := by
  intro xs h
  refine of_scalar ?_
  by_cases hv : v.isNull = true
  · rw [Value.eq_null_of_isNull hv] at h
    exact .inl (Write.leaves_element_null_iff.1 h)
  · obtain ⟨bs, -, rfl⟩ := (Write.leaves_element_scalar_iff (by simpa using hv)).1 h
    exact .inr ⟨bs, rfl⟩

theorem null {declared : String} (hpath : path ≠ "") :
    ElementFollowed r resolve path (.entity declared) reference .null := by
  intro xs h
  rw [Write.leaves_element_null_iff.1 h, Link.ofElement_null]
  exact of_nothing (fun depth es hh => Read.valueAt_eq_of_empty hpath fun k hk => hh k hk) .null

theorem keyspace_of_reference? (hb : r.Built) {declared : String} {target : Object}
    {reference : Reference} (h : r.reference? declared target = some reference) :
    reference.keyspace ≠ "" ∧ ':' ∉ reference.keyspace.toList := by
  obtain ⟨t, p, v, id, ht, -, -, -, rfl⟩ := Link.reference?_eq_some_iff.1 h
  obtain ⟨hne, -, hcolon⟩ := EntityType.isKeyspace_iff.1 (hb.sound ht).2.keyspace
  exact ⟨hne, hcolon⟩

/-- A reference is resolved by the id and the keyspace that its pointer is made of. -/
theorem referent_eq {reference : Reference} (hk : reference.keyspace ≠ "")
    (hc : ':' ∉ reference.keyspace.toList) (hid : reference.id ≠ "") :
    Read.referent resolve path reference.type
        (Utf8.encode (Path.entityKey reference.keyspace reference.id)) = (do
      Traced.mark reference
      pure ((← resolve reference).map Object.toValue)) := by
  have hpointer : Read.pointer path
      (Utf8.encode (Path.entityKey reference.keyspace reference.id)) =
        .ok (reference.keyspace, reference.id) := by
    rw [Read.pointer, Utf8.decode_encode]
    simp only [Path.splitPointer?_entityKey hc hk hid]
  rw [Read.referent, hpointer]
  rfl

theorem referent {declared : String} (hb : r.Built) (hpath : path ≠ "") :
    ElementFollowed r resolve path (.entity declared) true v := by
  intro xs h
  by_cases hv : v.isNull = true
  · rw [Value.eq_null_of_isNull hv] at h ⊢
    exact null hpath xs h
  have hstored := Link.stored_of_leaves_reference h
  obtain ⟨name, fields, s, rfl, hs, rfl⟩ :=
    (Write.leaves_reference_iff (by simpa using hv)).1 h
  obtain ⟨reference, href, hid, rfl⟩ := (Link.pointer_eq_ok_iff declared).1 hs
  obtain ⟨hk, hc⟩ := keyspace_of_reference? hb href
  have htype : reference.type = declared := by
    obtain ⟨_, _, _, _, -, -, -, -, rfl⟩ := Link.reference?_eq_some_iff.1 href
    rfl
  have hread : ∀ depth (es : Entries), Holds es (covers (.entity declared) true path)
      (filled [(path, Utf8.encode (Path.entityKey reference.keyspace reference.id))]) →
      Read.valueAt resolve (Read.object r resolve depth) (.entity declared) true es path = (do
        Traced.mark reference
        pure ((← resolve reference).map Object.toValue)) := by
    intro depth es hh
    rw [Read.valueAt_of_isLeaf rfl,
      hh.get? (mem_filled_iff.2 ⟨List.mem_singleton_self _, Link.encode_entityKey_ne_nil _ _⟩),
      ← referent_eq hk hc hid, htype]
    rfl
  rw [Link.ofElement_reference] at hstored ⊢
  refine ⟨tidy_filled_singleton _, fun x hx => ?_, hstored, fun l hl x hx hbelow => ?_,
    fun depth es hh => ?_, fun depth es hh w? hw => ?_⟩
  · rw [List.mem_singleton.1 hx]
    exact (covers_leaf_iff rfl).2 rfl
  · rw [List.mem_singleton.1 hx]
    exact List.mem_singleton_self _
  · have hlink : Link.reference? r ⟨path, declared, ⟨name, fields⟩⟩ = some reference := href
    rw [hread depth es hh, List.filterMap_cons_some hlink]
    refine (Marks.mark reference).bind fun _ _ => ?_
    exact (Marks.liftM fun e he => .inl ⟨reference, he⟩).bind fun x _ => .pure _
  · rw [hread depth es hh] at hw
    obtain ⟨⟨⟩, -, hw⟩ := Traced.outcome_bind_eq_ok_iff.1 hw
    obtain ⟨x, hx, hw⟩ := Traced.outcome_bind_eq_ok_iff.1 hw
    cases hw
    exact .referent href hx

/-! ## Elements -/

section Elements

variable {type : TypeRef} {as : List (String × Value)}

/-- What is left for an element at its key text. -/
def left (r : Registry) (path : String) (type : TypeRef) (reference : Bool)
    (a : String × Value) : List (String × Bytes) :=
  Step.pairs (Write.element r (Path.element path a.1) type reference a.2).trace

theorem elementsLeave_iff : ElementsLeave r path type reference as xs ↔
    (∀ a ∈ as, Leaves (Write.element r (Path.element path a.1) type reference a.2)
      (left r path type reference a)) ∧ xs = as.flatMap (left r path type reference) := by
  constructor
  · rintro ⟨parts, h, rfl⟩
    refine ⟨fun a ha => ?_, ?_⟩
    · obtain ⟨ys, -, ho, -⟩ := Lists.exists_right_of_mem h ha
      exact ⟨ho, rfl⟩
    · rw [Lists.eq_map_of_forall₂ h fun a _ ys hy => hy.2.symm]
      rfl
  · rintro ⟨hl, rfl⟩
    refine ⟨as.map (left r path type reference), ?_, rfl⟩
    rwa [List.forall₂_map_right_iff, List.forall₂_same]

/-- The elements of which something is stored. -/
def kept (r : Registry) (path : String) (type : TypeRef) (reference : Bool)
    (as : List (String × Value)) : List (String × Value) :=
  as.filter fun a => !(filled (left r path type reference a)).isEmpty

theorem mem_kept_iff {a : String × Value} : a ∈ kept r path type reference as ↔
    a ∈ as ∧ filled (left r path type reference a) ≠ [] := by
  simp [kept]

theorem kept_sublist : (kept r path type reference as).Sublist as := List.filter_sublist

theorem filterMap_kept {β : Type} {f : String × Value → Option β}
    (h : ∀ a ∈ as, a ∉ kept r path type reference as → f a = none) :
    (kept r path type reference as).filterMap f = as.filterMap f := by
  refine Lists.filterMap_filter_of_none fun a ha hc => h a ha ?_
  simp [kept, hc]

section Leaves

variable (htell : Telling type reference (as.map Prod.fst))
  (hel : ∀ a ∈ as, ElementFollowed r resolve (Path.element path a.1) type reference a.2)
  (h : ElementsLeave r path type reference as xs)

include h in
theorem filled_elements :
    filled xs = ((kept r path type reference as).map fun a =>
      filled (left r path type reference a)).flatten := by
  rw [(elementsLeave_iff.1 h).2, filled_flatMap, kept]
  exact (Lists.flatMap_filter_of_nil fun a _ hc => by simpa using hc).symm

include htell in
theorem telling_kept : Telling type reference ((kept r path type reference as).map Prod.fst) := by
  have hsub : ((kept r path type reference as).map Prod.fst).Sublist (as.map Prod.fst) :=
    kept_sublist.map _
  exact ⟨htell.distinct.sublist hsub, fun hl text ht => htell.no_bracket hl text (hsub.subset ht)⟩

include htell in
theorem apart_left : Apart (fun a : String × Value =>
    covers type reference (Path.element path a.1)) as :=
  List.pairwise_map.1 (apart_elements htell)

include hel h

theorem followed_of_mem {a : String × Value} (ha : a ∈ as) :
    Followed r resolve (left r path type reference a)
      (covers type reference (Path.element path a.1))
      (Link.ofElement r (Path.element path a.1) type reference a.2)
      (fun depth es => Read.valueAt resolve (Read.object r resolve depth) type reference es
        (Path.element path a.1))
      (ElementBack r resolve type reference a.2) :=
  hel a ha _ ((elementsLeave_iff.1 h).1 a ha)

theorem elementParts_kept : ElementParts type reference path
    ((kept r path type reference as).map Prod.fst)
    ((kept r path type reference as).map fun a => filled (left r path type reference a)) := by
  rw [ElementParts, List.forall₂_map_left_iff, List.forall₂_map_right_iff, List.forall₂_same]
  intro a ha
  obtain ⟨hm, hne⟩ := mem_kept_iff.1 ha
  have hf := followed_of_mem hel h hm
  exact ⟨hne, hf.tidy, fun x hx => hf.inside x (mem_filled_iff.1 hx).1⟩

theorem inRegion_of_elements : ∀ x ∈ xs, inRegion path x.1 = true := by
  rw [(elementsLeave_iff.1 h).2]
  intro x hx
  obtain ⟨a, ha, hx⟩ := List.mem_flatMap.1 hx
  refine inRegion_iff.2 (.inr ?_)
  exact (Path.below_element path a.1).trans_within
    (within_of_covers ((followed_of_mem hel h ha).inside x hx))

theorem stored_elements : Link.Stored r (Link.ofElements r path type reference as) xs := by
  rw [(elementsLeave_iff.1 h).2]
  exact .flatMap fun a ha => (followed_of_mem hel h ha).stored

/-- What the elements refer to is what those elements do that are stored. -/
theorem filterMap_ofElements : (Link.ofElements r path type reference as).filterMap
      (Link.reference? r) =
    (kept r path type reference as).flatMap fun a =>
      (Link.ofElement r (Path.element path a.1) type reference a.2).filterMap
        (Link.reference? r) := by
  rw [Link.ofElements, List.filterMap_flatMap, kept]
  refine (Lists.flatMap_filter_of_nil fun a ha hc => ?_).symm
  rw [(followed_of_mem hel h ha).stored.eq_nil (by simpa using hc), List.filterMap_nil]

/-- Where references to elements are stored, nothing else is. -/
theorem mem_paths_of_reference (hr : reference = true) (hlinks : Link.ofElements r path type
    reference as ≠ []) {x : String × Bytes} (hx : x ∈ xs) :
    x.1 ∈ (Link.ofElements r path type reference as).map (·.path) := by
  subst hr
  obtain ⟨hleaves, rfl⟩ := elementsLeave_iff.1 h
  obtain ⟨b, hb, hx⟩ := List.mem_flatMap.1 hx
  cases type with
  | scalar type => simp [Link.ofElements] at hlinks
  | entity declared =>
    have hv : b.2.isNull = false := by
      by_contra hnull
      have hl := hleaves b hb
      rw [Bool.not_eq_false] at hnull
      rw [Value.eq_null_of_isNull hnull] at hl
      rw [Write.leaves_element_null_iff.1 hl] at hx
      cases hx
    obtain ⟨name, fields, s, heq, -, hleft⟩ := (Write.leaves_reference_iff hv).1 (hleaves b hb)
    rw [hleft] at hx
    rw [List.mem_singleton.1 hx]
    refine List.mem_map.2 ⟨⟨Path.element path b.1, declared, ⟨name, fields⟩⟩, ?_, rfl⟩
    refine List.mem_flatMap.2 ⟨b, hb, ?_⟩
    rw [heq, Link.ofElement_reference]
    exact List.mem_singleton_self _

include htell

theorem below_elements : ∀ l ∈ Link.ofElements r path type reference as, ∀ x ∈ xs,
    Below l.path x.1 → x.1 ∈ (Link.ofElements r path type reference as).map (·.path) := by
  intro l hl x hx hbelow
  cases hr : reference with
  | true =>
    subst hr
    exact mem_paths_of_reference hel h rfl (List.ne_nil_of_mem hl) hx
  | false =>
    subst hr
    have hnested : Read.isLeaf type false = false := by
      cases type with
      | scalar type => simp [Link.ofElements] at hl
      | entity declared => rfl
    rw [(elementsLeave_iff.1 h).2] at hx
    refine Link.below_flatMap (apart_left htell) (fun a ha => (followed_of_mem hel h ha).inside)
      (fun a k k' hk hbelow => ?_) (fun a ha => (followed_of_mem hel h ha).stored)
      (fun a ha => (followed_of_mem hel h ha).below) l hl x hx hbelow
    exact (covers_nested_iff hnested).2 (((covers_nested_iff hnested).1 hk).trans hbelow.within)

theorem tidy_elements : Tidy (filled xs) := by
  rw [(elementsLeave_iff.1 h).2, filled_flatMap]
  exact .flatMap (apart_left htell)
    (fun a ha x hx => (followed_of_mem hel h ha).inside x (mem_filled_iff.1 hx).1)
    fun a ha => (followed_of_mem hel h ha).tidy

theorem elementKeys_kept {es : Entries} (hh : Holds es (inRegion path) (filled xs)) :
    Read.elementKeys type reference es path =
      (kept r path type reference as).map fun a => Path.element path a.1 := by
  rw [filled_elements h] at hh
  rw [elementKeys_of_parts (telling_kept htell) (elementParts_kept hel h) hh, List.map_map]
  rfl

theorem holds_of_mem {es : Entries} (hh : Holds es (inRegion path) (filled xs))
    {a : String × Value} (ha : a ∈ as) :
    Holds es (covers type reference (Path.element path a.1))
      (filled (left r path type reference a)) := by
  rw [(elementsLeave_iff.1 h).2, filled_flatMap] at hh
  refine hh.of_flatMap (apart_left htell)
    (fun a ha x hx => (followed_of_mem hel h ha).inside x (mem_filled_iff.1 hx).1)
    (fun a _ k hk => inRegion_iff.2 (.inr ?_)) a ha
  exact (Path.below_element path a.1).trans_within (within_of_covers hk)

theorem marks_of_mem_kept {depth : Nat} {es : Entries} (hh : Holds es (inRegion path) (filled xs))
    {a : String × Value} (ha : a ∈ kept r path type reference as) :
    Marks (TypesFound resolve) (Read.valueAt resolve (Read.object r resolve depth) type reference es
        (Path.element path a.1))
      ((Link.ofElement r (Path.element path a.1) type reference a.2).filterMap
        (Link.reference? r)) :=
  have hm := (mem_kept_iff.1 ha).1
  (followed_of_mem hel h hm).marks depth es (holds_of_mem htell hel h hh hm)

/-- A value is read again along its elements. -/
theorem of_elements {read : Nat → Entries → Reading (Option Value)} {back : Option Value → Prop}
    (hmarks : ∀ depth es, Holds es (inRegion path) (filled xs) → Marks (TypesFound resolve)
      (read depth es) ((kept r path type reference as).flatMap fun a =>
        (Link.ofElement r (Path.element path a.1) type reference a.2).filterMap
          (Link.reference? r)))
    (hback : ∀ depth es, Holds es (inRegion path) (filled xs) → ∀ w?,
      (read depth es).outcome = .ok w? → back w?) :
    Followed r resolve xs (inRegion path) (Link.ofElements r path type reference as) read back where
  tidy := tidy_elements htell hel h
  inside := inRegion_of_elements hel h
  stored := stored_elements hel h
  below := below_elements htell hel h
  marks depth es hh := by
    rw [filterMap_ofElements hel h]
    exact hmarks depth es hh
  back := hback

/-- Each element has something that is read for it, if that can be: nothing where nothing is
stored. -/
theorem exists_elementsBack {depth : Nat} {es : Entries} (hh : Holds es (inRegion path) (filled xs))
    (hread : ∀ a ∈ kept r path type reference as, ∃ w?, (Read.valueAt resolve
      (Read.object r resolve depth) type reference es (Path.element path a.1)).outcome = .ok w?) :
    ∃ back : String × Value → Option Value,
      (∀ a ∈ as, ElementBack r resolve type reference a.2 (back a)) ∧
      (∀ a ∈ kept r path type reference as, (Read.valueAt resolve (Read.object r resolve depth)
        type reference es (Path.element path a.1)).outcome = .ok (back a)) ∧
      ∀ a ∈ as, a ∉ kept r path type reference as → back a = none := by
  have hexists : ∀ a, ∃ w? : Option Value,
      (a ∈ kept r path type reference as → (Read.valueAt resolve (Read.object r resolve depth)
        type reference es (Path.element path a.1)).outcome = .ok w?) ∧
      (a ∉ kept r path type reference as → w? = none) := by
    intro a
    by_cases ha : a ∈ kept r path type reference as
    · obtain ⟨w?, hw⟩ := hread a ha
      exact ⟨w?, fun _ => hw, fun hk => absurd ha hk⟩
    · exact ⟨none, fun hk => absurd hk ha, fun _ => rfl⟩
  choose back hback hnone using hexists
  refine ⟨back, fun a ha => ?_, hback, fun a _ => hnone a⟩
  have hf := followed_of_mem hel h ha
  by_cases hk : a ∈ kept r path type reference as
  · exact hf.back depth es (holds_of_mem htell hel h hh ha) _ (hback a hk)
  · have hnil : filled (left r path type reference a) = [] := by
      by_contra hne
      exact hk (mem_kept_iff.2 ⟨ha, hne⟩)
    rw [hnone a hk]
    refine hf.back 0 Entries.empty (by rw [hnil]; rfl) none ?_
    rw [Read.valueAt_eq_of_empty (Path.element_ne_empty _ _) fun _ _ => rfl]
    rfl

end Leaves

end Elements

end Followed

end FlatGraph
