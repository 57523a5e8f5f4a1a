import FlatGraph.Proofs.Convert.Parts
import FlatGraph.Proofs.Convert.Rewrite

/-!
# Objects that are referred to

An object refers to others, and so do the objects inside it. `Object.links` lists all of these with
the paths at which they stand, in the order of properties, items and map entries; an object that is
referred to is not looked into.

**The writer stores a pointer for each of them** (`Link.storedWith`): the keyspace of its type and
its id, which have to be known. Pointers are never empty, so that none of them gets lost
(`Link.Stored.entries_filled`).
-/

namespace FlatGraph

open Rewrite (ElementsLeave indexed keyed)
open FlatGraph.Path (Below)
open Write (Leaves)

/-- An object that another one refers to. -/
structure Link where
  /-- The path at which the reference stands. -/
  path : String
  /-- The type that is declared for the object. -/
  declared : String
  target : Object
deriving DecidableEq

/-- The reference to an object that stands for the declared type. -/
def Registry.reference? (r : Registry) (declared : String) (target : Object) :
    Option Reference := do
  let t ← r.find? target.type
  let p ← t.idProperty?
  let v ← target.get? p.name
  let id ← v.toText.toOption
  pure ⟨id, t.keyspace, declared⟩

namespace Link

mutual

/-- The objects that the value of a property refers to, in their order. -/
def ofProperty (r : Registry) (path : String) (p : Property) (v : Value) : List Link :=
  match p.shape, v with
  | .single type, v => ofElement r path type p.isReference v
  | .list type, .list items => items.zipIdx.attach.flatMap fun ⟨a, _⟩ =>
    ofElement r (Path.element path (indexText a.2)) type p.isReference a.1
  | .map key type, .map entries => entries.flatMap fun e =>
    ofElement r (Path.element path ((key.keyText e.1).toOption.getD "")) type p.isReference e.2
  | _, _ => []
termination_by 2 * sizeOf v + 1
decreasing_by
  · exact Nat.lt_succ_self _
  · next ha =>
    have h : sizeOf a.1 < sizeOf (Value.list items) :=
      Value.sizeOf_lt_of_mem_items (List.fst_mem_of_mem_zipIdx ha)
    exact Nat.lt_succ_of_lt (Nat.mul_lt_mul_of_pos_left h two_pos)
  · next he =>
    have := Value.sizeOf_lt_of_mem_entries he
    omega

/-- The objects that a value of a declared type refers to, in the order of the properties. -/
def ofElement (r : Registry) (path : String) (type : TypeRef) (reference : Bool) (v : Value) :
    List Link :=
  match type, v with
  | .entity declared, .object type fields =>
    if reference then [⟨path, declared, ⟨type, fields⟩⟩]
    else match r.find? type with
      | some t => t.properties.flatMap fun p =>
        match _h : Fields.get? fields p.name with
        | some v => ofProperty r (Path.join path p.name) p v
        | none => []
      | none => []
  | _, _ => []
termination_by 2 * sizeOf v
decreasing_by
  have := Write.sizeOf_lt_of_get? _h
  simp only [Value.object.sizeOf_spec]
  omega

end

variable {r : Registry} {path : String} {p : Property} {type : TypeRef} {v : Value}

/-- The objects that the elements of a list or a map refer to, each at its key text. -/
def ofElements (r : Registry) (path : String) (type : TypeRef) (reference : Bool)
    (as : List (String × Value)) : List Link :=
  as.flatMap fun a => ofElement r (Path.element path a.1) type reference a.2

/-- The objects that a field refers to. -/
def ofField (r : Registry) (path : String) (p : Property) (v? : Option Value) : List Link :=
  v?.elim [] (ofProperty r path p)

/-- The objects that the fields of an object refer to. -/
def ofFields (r : Registry) (base : String) (t : EntityType) (fields : List (String × Value)) :
    List Link :=
  t.properties.flatMap fun p => ofField r (Path.join base p.name) p (Fields.get? fields p.name)

theorem ofProperty_single (hs : p.shape = .single type) :
    ofProperty r path p v = ofElement r path type p.isReference v := by
  rw [ofProperty.eq_def, hs]

theorem ofProperty_list {items : List Value} (hs : p.shape = .list type) :
    ofProperty r path p (.list items) =
      ofElements r path type p.isReference (indexed items) := by
  rw [ofProperty.eq_def, hs, ofElements, indexed, List.flatMap_map,
    ← List.attach_map_subtype_val items.zipIdx, List.flatMap_map]

theorem ofProperty_map {key : ScalarType} {entries : List (Value × Value)}
    (hs : p.shape = .map key type) :
    ofProperty r path p (.map entries) =
      ofElements r path type p.isReference (keyed key entries) := by
  rw [ofProperty.eq_def, hs, ofElements, keyed, List.flatMap_map]

@[simp] theorem ofElement_scalar {type : ScalarType} {reference : Bool} :
    ofElement r path (.scalar type) reference v = [] := by
  rw [ofElement]
  intro _ _ _ h
  cases h

@[simp] theorem ofElement_null {reference : Bool} : ofElement r path type reference .null = [] := by
  rw [ofElement]
  intro _ _ _ _ h
  cases h

theorem ofElement_reference {declared name : String} {fields : List (String × Value)} :
    ofElement r path (.entity declared) true (.object name fields) =
      [⟨path, declared, ⟨name, fields⟩⟩] := by
  rw [ofElement, if_pos rfl]

theorem ofElement_nested {declared name : String} {fields : List (String × Value)}
    {t : EntityType} (ht : r.find? name = some t) :
    ofElement r path (.entity declared) false (.object name fields) =
      ofFields r path t fields := by
  rw [ofElement, if_neg Bool.false_ne_true, ht]
  refine List.flatMap_congr fun p _ => ?_
  split <;> next h => rw [h]; rfl

/-! ## Entries -/

/-- The reference to the object, if it is known by an id. -/
def reference? (r : Registry) (l : Link) : Option Reference := r.reference? l.declared l.target

/-- The entry in which the reference to an object is stored. -/
def pair? (r : Registry) (l : Link) : Option (String × Bytes) :=
  (reference? r l).map fun reference =>
    (l.path, Utf8.encode (Path.entityKey reference.keyspace reference.id))

/-- The objects that are referred to are known by their ids, and the entries of the references are
among the pairs, in their order. -/
structure Stored (r : Registry) (links : List Link) (xs : List (String × Bytes)) : Prop where
  known : ∀ l ∈ links, ∃ reference, reference? r l = some reference ∧ reference.id ≠ ""
  entries : (links.filterMap (pair? r)).Sublist xs

theorem Stored.nil {xs : List (String × Bytes)} : Stored r [] xs :=
  ⟨fun _ h => (nomatch h), List.nil_sublist _⟩

theorem Stored.mono {links : List Link} {xs ys : List (String × Bytes)} (h : Stored r links xs)
    (hs : xs.Sublist ys) : Stored r links ys := ⟨h.known, h.entries.trans hs⟩

theorem Stored.append {links links' : List Link} {xs ys : List (String × Bytes)}
    (h : Stored r links xs) (h' : Stored r links' ys) : Stored r (links ++ links') (xs ++ ys) where
  known l hl := (List.mem_append.1 hl).elim (h.known l) (h'.known l)
  entries := by
    rw [List.filterMap_append]
    exact h.entries.append h'.entries

theorem Stored.flatten {α : Type} {links : α → List Link} {as : List α}
    {parts : List (List (String × Bytes))}
    (h : List.Forall₂ (fun a ys => Stored r (links a) ys) as parts) :
    Stored r (as.flatMap links) parts.flatten := by
  induction h with
  | nil => exact .nil
  | cons hy _ ih => exact hy.append ih

theorem Stored.flatMap {α : Type} {links : α → List Link} {as : List α}
    {left : α → List (String × Bytes)} (h : ∀ a ∈ as, Stored r (links a) (left a)) :
    Stored r (as.flatMap links) (as.flatMap left) := by
  refine .flatten ?_
  rw [List.forall₂_map_right_iff, List.forall₂_same]
  exact h

theorem reference?_eq_some_iff {declared : String} {target : Object} {reference : Reference} :
    r.reference? declared target = some reference ↔
      ∃ t p v id, r.find? target.type = some t ∧ t.idProperty? = some p ∧
        target.get? p.name = some v ∧ v.toText = .ok id ∧
        reference = ⟨id, t.keyspace, declared⟩ := by
  have htext : ∀ (v : Value) id, v.toText.toOption = some id ↔ v.toText = .ok id := by
    intro v id
    cases v.toText <;> simp [Except.toOption]
  simp [Registry.reference?, Option.bind_eq_some_iff, htext, @eq_comm _ reference]

/-- A pointer is made of the keyspace and the id in the reference. -/
theorem pointer_eq_ok_iff (declared : String) {name s : String}
    {fields : List (String × Value)} :
    Write.pointer r path name fields = .ok s ↔
      ∃ reference, r.reference? declared ⟨name, fields⟩ = some reference ∧ reference.id ≠ "" ∧
        s = Path.entityKey reference.keyspace reference.id := by
  unfold Write.pointer
  simp only [reference?_eq_some_iff]
  constructor
  · intro h
    obtain ⟨t, ht, h⟩ := Outcome.bind_eq_ok_iff.1 h
    split at h
    · next v hv =>
      obtain ⟨id, hid, h⟩ := Outcome.bind_eq_ok_iff.1 h
      split_ifs at h with hne
      obtain ⟨p, hp, hv⟩ := Option.bind_eq_some_iff.1 hv
      exact ⟨_, ⟨t, p, v, id, Registry.get_eq_ok_iff.1 ht, hp, hv,
        (Write.idText_eq_ok_iff.1 hid).2, rfl⟩, hne, (Outcome.pure_eq_ok_iff.1 h).symm⟩
    · cases h
  · rintro ⟨_, ⟨t, p, v, id, ht, hp, hv, hid, rfl⟩, hne, rfl⟩
    have hscalar := Value.isScalar_of_toText (Fields.isNull_of_get? hv) hid
    have hbind : (t.idProperty?.bind fun p => Fields.get? fields p.name) = some v :=
      Option.bind_eq_some_iff.2 ⟨p, hp, hv⟩
    refine Outcome.bind_eq_ok_iff.2 ⟨t, Registry.get_eq_ok_iff.2 ht, ?_⟩
    rw [hbind]
    exact Outcome.bind_eq_ok_iff.2 ⟨id, Write.idText_eq_ok_iff.2 ⟨hscalar, hid⟩, if_neg hne⟩

theorem stored_of_leaves_reference {xs : List (String × Bytes)}
    (h : Leaves (Write.element r path type true v) xs) :
    Stored r (ofElement r path type true v) xs := by
  cases type with
  | scalar type =>
    rw [ofElement_scalar]
    exact .nil
  | entity declared =>
    by_cases hv : v.isNull = true
    · rw [Value.eq_null_of_isNull hv, ofElement_null]
      exact .nil
    obtain ⟨name, fields, s, rfl, hs, rfl⟩ :=
      (Write.leaves_reference_iff (by simpa using hv)).1 h
    obtain ⟨reference, href, hid, rfl⟩ := (pointer_eq_ok_iff declared).1 hs
    rw [ofElement_reference]
    refine ⟨fun l hl => ?_, by simp [pair?, reference?, href]⟩
    rw [List.mem_singleton.1 hl]
    exact ⟨reference, href, hid⟩

/-- Elements refer to what each of them does. -/
theorem stored_of_elementsLeave {reference : Bool} {as : List (String × Value)}
    {xs : List (String × Bytes)} (h : ElementsLeave r path type reference as xs)
    (ih : ∀ a ∈ as, ∀ path ys, Leaves (Write.element r path type reference a.2) ys →
      Stored r (ofElement r path type reference a.2) ys) :
    Stored r (ofElements r path type reference as) xs := by
  obtain ⟨parts, hparts, rfl⟩ := h
  exact .flatten (Lists.forall₂_imp_mem hparts fun a ha ys _ => ih a ha _ ys)

/-- What a value in its role refers to is stored with it, wherever that is. -/
def StoredWith (r : Registry) : Role × Value → Prop
  | (.element type, v) => ∀ path xs, Leaves (Write.element r path type false v) xs →
      Stored r (ofElement r path type false v) xs
  | (.property p, v) => EntityType.propertyViolation? p = none → ∀ root path xs,
      Leaves (Write.property r root path p v) xs → Stored r (ofProperty r path p v) xs

theorem storedWith_element
    (ih : ∀ part, PartOf r part (.element type, v) → StoredWith r part)
    (hb : r.Built) : StoredWith r (.element type, v) := by
  intro path xs h
  cases type with
  | scalar type =>
    rw [ofElement_scalar]
    exact .nil
  | entity declared =>
    by_cases hv : v.isNull = true
    · rw [Value.eq_null_of_isNull hv, ofElement_null]
      exact .nil
    obtain ⟨name, fields, t, ys, rfl, ht, -, hy, rfl⟩ :=
      (Write.leaves_nested_iff (by simpa using hv)).1 h
    obtain ⟨parts, hparts, rfl⟩ := Write.leaves_properties_iff.1 hy
    rw [ofElement_nested ht]
    refine (Stored.flatten ?_).mono (List.sublist_append_right _ _)
    refine Lists.forall₂_imp_mem hparts fun p hp zs _ hz => ?_
    cases hv : Fields.get? fields p.name with
    | none => exact .nil
    | some v =>
      rw [hv] at hz
      exact ih _ (.field ht hp hv) ((hb.sound ht).2.property p hp) false _ zs hz

theorem storedWith_property
    (ih : ∀ part, PartOf r part (.property p, v) → StoredWith r part) :
    StoredWith r (.property p, v) := by
  intro hp root path xs h
  by_cases hid : p.isId = true
  · obtain ⟨key, hs⟩ := Shape.isSingleScalar_iff.1
      ((EntityType.propertyViolation?_eq_none_iff.1 hp).1 hid).1
    rw [ofProperty_single hs, ofElement_scalar]
    exact .nil
  rw [Bool.not_eq_true] at hid
  -- A reference is stored as a whole, all else with its own parts.
  have helement : ∀ type w, (p.isReference = false → StoredWith r (.element type, w)) →
      ∀ path ys, Leaves (Write.element r path type p.isReference w) ys →
        Stored r (ofElement r path type p.isReference w) ys := by
    intro type w hw path ys hy
    cases hr : p.isReference with
    | true =>
      rw [hr] at hy
      exact stored_of_leaves_reference hy
    | false =>
      rw [hr] at hy
      exact hw hr path ys hy
  cases hs : p.shape with
  | single type =>
    rw [Write.leaves_property_single_iff hid hs] at h
    rw [ofProperty_single hs]
    exact helement type v (fun hr => ih _ (.single hid hr hs)) path xs h
  | list type =>
    obtain ⟨items, rfl, -⟩ := (Write.leaves_property_list_iff hid hs).1 h
    rw [ofProperty_list hs]
    refine stored_of_elementsLeave ((Rewrite.leaves_list_iff hid hs).1 h) fun a ha => ?_
    refine helement type a.2 fun hr => ih _ (.item hid hr hs ?_)
    rw [← Rewrite.map_snd_indexed items]
    exact List.mem_map_of_mem ha
  | map key type =>
    obtain ⟨entries, rfl, -⟩ := (Write.leaves_property_map_iff hid hs).1 h
    rw [ofProperty_map hs]
    refine stored_of_elementsLeave ((Rewrite.leaves_map_iff hid hs).1 h).2 fun a ha => ?_
    obtain ⟨e, he, rfl⟩ := List.mem_map.1 ha
    exact helement type e.2 fun hr => ih _ (.value hid hr hs he)

/-- **The entries of all references in a value are left by its walk**, in the order of the
references. -/
theorem storedWith (hb : r.Built) (whole : Role × Value) : StoredWith r whole := by
  have hwf : WellFounded (PartOf r) := PartOf.wellFounded
  induction whole using hwf.induction with
  | _ whole ih =>
    match whole with
    | (.element type, v) => exact storedWith_element ih hb
    | (.property p, v) => exact storedWith_property ih

/-! ## Stored references -/

theorem encode_entityKey_ne_nil (keyspace id : String) :
    Utf8.encode (Path.entityKey keyspace id) ≠ [] := by
  rw [Ne, Utf8.encode_eq_nil_iff]
  simp [Path.entityKey]

/-- The entries of references are stored, as none of them is empty. -/
theorem Stored.entries_filled {links : List Link} {xs : List (String × Bytes)}
    (h : Stored r links xs) : (links.filterMap (pair? r)).Sublist (filled xs) := by
  have hsub := h.entries.filter (!·.2.isEmpty)
  rwa [List.filter_eq_self.2] at hsub
  intro x hx
  obtain ⟨l, -, hl⟩ := List.mem_filterMap.1 hx
  obtain ⟨reference, -, rfl⟩ := Option.map_eq_some_iff.1 hl
  simpa using encode_entityKey_ne_nil reference.keyspace reference.id

theorem Stored.mem_filled {links : List Link} {xs : List (String × Bytes)}
    (h : Stored r links xs) {l : Link} (hl : l ∈ links) : ∃ reference,
      reference? r l = some reference ∧ reference.id ≠ "" ∧
      (l.path, Utf8.encode (Path.entityKey reference.keyspace reference.id)) ∈ filled xs := by
  obtain ⟨reference, href, hid⟩ := h.known l hl
  refine ⟨reference, href, hid, h.entries_filled.subset (List.mem_filterMap.2 ⟨l, hl, ?_⟩)⟩
  rw [pair?, href]
  rfl

theorem Stored.exists_filled {links : List Link} {xs : List (String × Bytes)}
    (h : Stored r links xs) {l : Link} (hl : l ∈ links) : ∃ bs, (l.path, bs) ∈ filled xs := by
  obtain ⟨reference, -, -, hm⟩ := h.mem_filled hl
  exact ⟨_, hm⟩

/-- References are stored at different paths. -/
theorem Stored.nodup {links : List Link} {xs : List (String × Bytes)}
    (h : Stored r links xs) (ht : Tidy (filled xs)) : (links.map (·.path)).Nodup := by
  have hpaths : (links.filterMap (pair? r)).map Prod.fst = links.map (·.path) := by
    rw [List.map_filterMap, ← List.filterMap_eq_map]
    refine List.filterMap_congr fun l hl => ?_
    obtain ⟨reference, href, -⟩ := h.known l hl
    rw [pair?, href]
    rfl
  rw [← hpaths]
  exact ht.distinct.sublist (h.entries_filled.map _)

/-- Where nothing is stored, there are no references. -/
theorem Stored.eq_nil {links : List Link} {xs : List (String × Bytes)}
    (h : Stored r links xs) (hx : filled xs = []) : links = [] := by
  refine List.eq_nil_iff_forall_not_mem.2 fun l hl => ?_
  obtain ⟨bs, hm⟩ := h.exists_filled hl
  rw [hx] at hm
  cases hm

section Apart

variable {α : Type} {region : α → String → Bool} {as : List α} {left : α → List (String × Bytes)}
  {links : α → List Link}

/-- Below a reference, there are only references if that is so in each region. -/
theorem below_flatMap (hd : Apart region as)
    (hin : ∀ a ∈ as, ∀ x ∈ left a, region a x.1 = true)
    (hclosed : ∀ a k k', region a k = true → Below k k' → region a k' = true)
    (hstored : ∀ a ∈ as, Stored r (links a) (left a))
    (h : ∀ a ∈ as, ∀ l ∈ links a, ∀ x ∈ left a, Below l.path x.1 →
      x.1 ∈ (links a).map (·.path)) :
    ∀ l ∈ as.flatMap links, ∀ x ∈ as.flatMap left, Below l.path x.1 →
      x.1 ∈ (as.flatMap links).map (·.path) := by
  intro l hl x hx hbelow
  obtain ⟨a, ha, hla⟩ := List.mem_flatMap.1 hl
  obtain ⟨b, hb, hxb⟩ := List.mem_flatMap.1 hx
  obtain ⟨bs, hmem⟩ := (hstored a ha).exists_filled hla
  have hlin := hin a ha _ (mem_filled_iff.1 hmem).1
  obtain rfl := hd.eq_of_mem ha hb (hclosed a _ _ hlin hbelow) (hin b hb x hxb)
  obtain ⟨l', hl', hpath⟩ := List.mem_map.1 (h a ha l hla x hxb hbelow)
  exact List.mem_map.2 ⟨l', List.mem_flatMap.2 ⟨a, ha, hl'⟩, hpath⟩

end Apart

end Link

/-- The objects that an object refers to: itself, or from the objects inside it, but not from those
it refers to. -/
def Object.links (r : Registry) (o : Object) : List Link :=
  Link.ofElement r "" (.entity o.type) false o.toValue

end FlatGraph
