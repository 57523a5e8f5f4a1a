import FlatGraph.Convert.Read
import FlatGraph.Proofs.Entries
import FlatGraph.Proofs.Scalar.Decode
import FlatGraph.Proofs.Traced
import FlatGraph.Proofs.Value

/-!
# What a read finds

A read that succeeds is taken apart here: which type an object has, which keys make up a list or a
map, and what is read at each of them. What is read for a single value and for an element of a
list or a map is the same (`valueAt`).

* `object_eq_ok_iff`: an object is read exactly if its type is found and each of its properties is
  read; it has the values that are found.
* `property_list_eq_ok_iff`, `property_map_eq_ok_iff`: a list or a map is read exactly if each of
  its elements is. Values in the order of their places stay in it (`inOrder_of_places`).
-/

namespace FlatGraph

namespace Read

variable {resolve : Resolver} {nested : Nested} {path text : String} {reference : Bool}
  {es : Entries} {p : Property}

/-! ## Values -/

theorem decode_eq_ok_iff {raw : Bytes} {type : ScalarType} {v : Option Value} :
    decode path raw type = .ok v ↔ type.decode raw = .ok v := by
  unfold decode
  cases type.decode raw <;> simp [Except.mapError]

theorem inner_eq_ok_iff {type : String} {v : Option Value} :
    (inner nested path type es).outcome = .ok v ↔
      if (es.extract path).size = 0 then v = none
      else ∃ o, (nested path type (es.extract path)).outcome = .ok o ∧ v = some o.toValue := by
  unfold inner
  dsimp only
  split
  · simp [eq_comm]
  · rw [Traced.outcome_bind_eq_ok_iff]
    simp [eq_comm]

/-- What is read for a value of a declared type at a path. -/
def valueAt (resolve : Resolver) (nested : Nested) (type : TypeRef) (reference : Bool)
    (es : Entries) (path : String) : Reading (Option Value) :=
  match type, reference with
  | .entity type, false => inner nested path type es
  | type, _ =>
    match es.get? path with
    | some raw => leaf resolve path raw type
    | none => pure none

/-- Whether values of the type are stored in one entry each. -/
def isLeaf : TypeRef → Bool → Bool
  | .entity _, false => false
  | _, _ => true

theorem isLeaf_or_nested (type : TypeRef) (reference : Bool) :
    isLeaf type reference = true ∨ ∃ name, type = .entity name ∧ reference = false := by
  cases type <;> cases reference <;> simp [isLeaf]

theorem valueAt_of_isLeaf {type : TypeRef} (h : isLeaf type reference = true) :
    valueAt resolve nested type reference es path =
      match es.get? path with
      | some raw => leaf resolve path raw type
      | none => pure none := by
  cases type <;> cases reference <;> first | rfl | cases h

theorem valueAt_scalar_eq_ok_iff {type : ScalarType} {v : Option Value} :
    (valueAt resolve nested (.scalar type) reference es path).outcome = .ok v ↔
      match es.get? path with
      | some raw => type.decode raw = .ok v
      | none => v = none := by
  rw [valueAt_of_isLeaf (by cases reference <;> rfl)]
  cases es.get? path with
  | none => simp [eq_comm]
  | some raw => exact decode_eq_ok_iff

theorem isNull_of_leaf {raw : Bytes} {type : TypeRef} {v : Value}
    (h : (leaf resolve path raw type).outcome = .ok (some v)) : v.isNull = false := by
  cases type with
  | scalar type => exact ScalarType.isNull_of_decode (decode_eq_ok_iff.1 h)
  | entity name =>
    obtain ⟨⟨keyspace, id⟩, -, h⟩ := Traced.outcome_bind_eq_ok_iff.1 h
    obtain ⟨⟨⟩, -, h⟩ := Traced.outcome_bind_eq_ok_iff.1 h
    obtain ⟨o, -, h⟩ := Traced.outcome_bind_eq_ok_iff.1 h
    obtain ⟨o, -, rfl⟩ := Option.map_eq_some_iff.1 (Except.ok.inj h)
    rfl

theorem isNull_of_valueAt {type : TypeRef} {v : Value}
    (h : (valueAt resolve nested type reference es path).outcome = .ok (some v)) :
    v.isNull = false := by
  rcases isLeaf_or_nested type reference with hl | ⟨name, rfl, rfl⟩
  · rw [valueAt_of_isLeaf hl] at h
    cases hg : es.get? path with
    | none =>
      rw [hg] at h
      cases h
    | some raw =>
      rw [hg] at h
      exact isNull_of_leaf h
  · have h := inner_eq_ok_iff.1 h
    split_ifs at h
    obtain ⟨o, -, ho⟩ := h
    cases ho
    rfl

/-! ## Elements -/

/-- The keys at which the elements of a list or a map are read. -/
def elementKeys (type : TypeRef) (reference : Bool) (es : Entries) (path : String) :
    List String :=
  match type, reference with
  | .entity _, false => es.elementPaths (Path.elementStart path)
  | _, _ => (es.below (Path.elementStart path)).map Prod.fst

theorem elementKeys_of_isLeaf {type : TypeRef} (h : isLeaf type reference = true) :
    elementKeys type reference es path = (es.below (Path.elementStart path)).map Prod.fst := by
  cases type <;> cases reference <;> first | rfl | cases h

theorem elementKeys_nodup (type : TypeRef) : (elementKeys type reference es path).Nodup := by
  rcases isLeaf_or_nested type reference with h | ⟨name, rfl, rfl⟩
  · rw [elementKeys_of_isLeaf h]
    exact es.below_distinct _
  · exact es.elementPaths_nodup _

/-- The element that a key lies in: at its path if elements are leaves, and else at or below it. -/
def owner (type : TypeRef) (reference : Bool) (path key : String) : Option String :=
  match type, reference with
  | .entity _, false => Path.elementPath? key (Path.elementStart path)
  | _, _ => if Text.beginsWith (Path.elementStart path) key then some key else none

theorem owner_of_isLeaf {type : TypeRef} (h : isLeaf type reference = true) (key : String) :
    owner type reference path key =
      if Text.beginsWith (Path.elementStart path) key then some key else none := by
  cases type <;> cases reference <;> first | rfl | cases h

theorem below_of_owner {type : TypeRef} {key q : String}
    (h : owner type reference path key = some q) : Path.Below path key := by
  rcases isLeaf_or_nested type reference with hl | ⟨name, rfl, rfl⟩
  · rw [owner_of_isLeaf hl] at h
    split_ifs at h with hb
    exact Path.below_of_beginsWith_elementStart hb
  · obtain ⟨text, rest, -, -, rfl⟩ := Path.elementPath?_eq_some_iff.1 h
    exact Path.below_of_beginsWith_elementStart
      (Text.beginsWith_trans (Path.beginsWith_element _ _) (Text.beginsWith_append _ _))

theorem mem_elementKeys_iff {type : TypeRef} {q : String} :
    q ∈ elementKeys type reference es path ↔
      ∃ k, es.get? k ≠ none ∧ owner type reference path k = some q := by
  rcases isLeaf_or_nested type reference with h | ⟨name, rfl, rfl⟩
  · rw [elementKeys_of_isLeaf h, List.mem_map]
    simp only [owner_of_isLeaf h, Entries.mem_below_iff]
    constructor
    · rintro ⟨e, ⟨he, hb⟩, rfl⟩
      exact ⟨e.1, by simp [he], by simp [hb]⟩
    · rintro ⟨k, hk, ho⟩
      obtain ⟨v, hv⟩ := Option.ne_none_iff_exists'.1 hk
      split_ifs at ho with hb
      cases ho
      exact ⟨(q, v), ⟨hv, hb⟩, rfl⟩
  · exact Entries.mem_elementPaths_iff

/-- Which elements there are depends on what lies below the path. -/
theorem elementKeys_perm_of_agree {bs : Entries} {type : TypeRef}
    (h : ∀ k, Path.Below path k → bs.get? k = es.get? k) :
    (elementKeys type reference bs path).Perm (elementKeys type reference es path) := by
  rw [List.perm_ext_iff_of_nodup (elementKeys_nodup type) (elementKeys_nodup type)]
  intro q
  rw [mem_elementKeys_iff, mem_elementKeys_iff]
  refine exists_congr fun k => and_congr_left fun ho => ?_
  rw [h k (below_of_owner ho)]

/-- There are no more elements than entries. -/
theorem length_elementKeys_le (type : TypeRef) :
    (elementKeys type reference es path).length ≤ es.size := by
  have hsub : elementKeys type reference es path ⊆
      es.toList.filterMap (owner type reference path ·.1) := fun q hq => by
    obtain ⟨k, hk, ho⟩ := mem_elementKeys_iff.1 hq
    obtain ⟨v, hv⟩ := Option.ne_none_iff_exists'.1 hk
    exact List.mem_filterMap.2 ⟨(k, v), Entries.get?_eq_some_iff.1 hv, ho⟩
  exact (List.subperm_of_subset (elementKeys_nodup type) hsub).length_le.trans
    (List.length_filterMap_le _ _)

theorem elements_eq (type : TypeRef) :
    elements resolve nested path type reference es =
      (elementKeys type reference es path).mapM fun k =>
        (Option.map (place k (Path.elementStart path), ·)) <$>
          valueAt resolve nested type reference es k := by
  rcases isLeaf_or_nested type reference with h | ⟨name, rfl, rfl⟩
  · have : elements resolve nested path type reference es =
        (es.below (Path.elementStart path)).mapM fun e =>
          (Option.map (place e.1 (Path.elementStart path), ·)) <$>
            leaf resolve e.1 e.2 type := by
      cases type <;> cases reference <;> first | rfl | cases h
    rw [this, elementKeys_of_isLeaf h, List.mapM_map]
    refine Traced.mapM_congr fun e he => ?_
    rw [Function.comp_apply, valueAt_of_isLeaf h, (Entries.mem_below_iff.1 he).1]
  · rfl

/-- The text of the key of a map entry. -/
def keyText (type : TypeRef) (reference : Bool) (start key : String) : Option String :=
  match type, reference with
  | .entity _, false => Path.elementKey? key start
  | _, _ => Path.leafKey? key start

theorem keyText_of_isLeaf {type : TypeRef} (h : isLeaf type reference = true)
    (start key : String) : keyText type reference start key = Path.leafKey? key start := by
  cases type <;> cases reference <;> first | rfl | cases h

theorem keyText_element {type : TypeRef}
    (h : isLeaf type reference = false → ']' ∉ text.toList) :
    keyText type reference (Path.elementStart path) (Path.element path text) = some text := by
  rcases isLeaf_or_nested type reference with hl | ⟨name, rfl, rfl⟩
  · rw [keyText_of_isLeaf hl, Path.leafKey?_eq_some_iff]
  · exact Path.elementKey?_element (h rfl)

theorem mapEntries_eq (keyType : ScalarType) (type : TypeRef) :
    mapEntries resolve nested path keyType type reference es =
      (elementKeys type reference es path).mapM fun k =>
        entryValue k (keyText type reference (Path.elementStart path) k) keyType
          (valueAt resolve nested type reference es k) := by
  rcases isLeaf_or_nested type reference with h | ⟨name, rfl, rfl⟩
  · have : mapEntries resolve nested path keyType type reference es =
        (es.below (Path.elementStart path)).mapM fun e =>
          entryValue e.1 (Path.leafKey? e.1 (Path.elementStart path)) keyType
            (leaf resolve e.1 e.2 type) := by
      cases type <;> cases reference <;> first | rfl | cases h
    rw [this, elementKeys_of_isLeaf h, List.mapM_map]
    refine Traced.mapM_congr fun e he => ?_
    rw [Function.comp_apply, valueAt_of_isLeaf h, (Entries.mem_below_iff.1 he).1,
      keyText_of_isLeaf h]
  · rfl

theorem entryValue_eq_ok_iff {key? : Option String} {keyType : ScalarType}
    {value : Reading (Option Value)} {y : Option (Value × Value)} :
    (entryValue path key? keyType value).outcome = .ok y ↔
      ((∀ text, key? = some text → keyType.decode (Utf8.encode text) = .ok none) ∧ y = none) ∨
        ∃ text key v, key? = some text ∧ keyType.decode (Utf8.encode text) = .ok (some key) ∧
          value.outcome = .ok v ∧ y = v.map (key, ·) := by
  cases key? with
  | none => simp [entryValue, eq_comm]
  | some text =>
    simp only [entryValue, Traced.outcome_bind_eq_ok_iff, Traced.outcome_liftM, decodeKey,
      decode_eq_ok_iff]
    constructor
    · rintro ⟨_ | key, hk, hy⟩
      · exact .inl ⟨fun t ht => by cases ht; exact hk, by simpa [eq_comm] using hy⟩
      · obtain ⟨v, hv, hy⟩ := Traced.outcome_bind_eq_ok_iff.1 hy
        exact .inr ⟨text, key, v, rfl, hk, hv, by simpa [eq_comm] using hy⟩
    · rintro (⟨hk, rfl⟩ | ⟨_, key, v, ⟨⟩, hk, hv, rfl⟩)
      · exact ⟨none, hk _ rfl, rfl⟩
      · exact ⟨some key, hk, Traced.outcome_bind_eq_ok_iff.2 ⟨v, hv, rfl⟩⟩

/-! ## Properties -/

theorem property_single {type : TypeRef} (h : p.shape = .single type) :
    property resolve nested path p es = valueAt resolve nested type p.isReference es path := by
  unfold property
  rw [h]
  cases type with
  | scalar type => rfl
  | entity name =>
    cases p.isReference with
    | true =>
      show (if true = true then _ else _) = _
      rw [if_pos rfl, valueAt_of_isLeaf rfl]
      rfl
    | false => rfl

/-- The list of the values that are found, if there are any. -/
def listOf (found : List (Option (Nat × Value))) : Option Value :=
  if (found.filterMap id).isEmpty then none else some (.list (inOrder (found.filterMap id)))

/-- The map of the entries that are found, if there are any. -/
def mapOf (found : List (Option (Value × Value))) : Option Value :=
  if (found.filterMap id).isEmpty then none else some (.map (found.filterMap id))

/-- Values in the order of their places stay in this order. -/
theorem inOrder_of_places {found : List (Nat × Value)}
    (h : (found.map Prod.fst).Pairwise (· ≤ ·)) : inOrder found = found.map (·.2) := by
  rw [inOrder, List.mergeSort_of_pairwise]
  rw [List.pairwise_map] at h
  exact h.imp fun h => decide_eq_true h

theorem listOf_map_some {found : List (Nat × Value)} (h : found ≠ []) :
    listOf (found.map some) = some (.list (inOrder found)) := by
  have hfound : (found.map some).filterMap id = found := by
    rw [List.filterMap_map]
    exact List.filterMap_some
  rw [listOf, hfound, if_neg (by simpa using h)]

theorem property_list_eq_ok_iff_elements {type : TypeRef} {v : Option Value}
    (h : p.shape = .list type) :
    (property resolve nested path p es).outcome = .ok v ↔
      ∃ found, (elements resolve nested path type p.isReference es).outcome = .ok found ∧
        v = listOf found := by
  unfold property
  rw [h, Traced.outcome_bind_eq_ok_iff]
  simp only [Traced.outcome_pure, Except.ok.injEq, listOf, @eq_comm _ v]

/-- **A list is read exactly if each of its elements is.** -/
theorem property_list_eq_ok_iff {type : TypeRef} {v : Option Value} (h : p.shape = .list type) :
    (property resolve nested path p es).outcome = .ok v ↔
      ∃ found, List.Forall₂ (fun k y => ∃ w,
          (valueAt resolve nested type p.isReference es k).outcome = .ok w ∧
            y = w.map (place k (Path.elementStart path), ·))
          (elementKeys type p.isReference es path) found ∧
        v = listOf found := by
  rw [property_list_eq_ok_iff_elements h, elements_eq]
  simp only [Traced.outcome_mapM_eq_ok_iff, Traced.outcome_map_eq_ok_iff,
    @eq_comm _ _ (Option.map _ _)]

/-- **A map is read exactly if each of its entries is.** -/
theorem property_map_eq_ok_iff {keyType : ScalarType} {type : TypeRef} {v : Option Value}
    (h : p.shape = .map keyType type) :
    (property resolve nested path p es).outcome = .ok v ↔
      ∃ found, List.Forall₂ (fun k y =>
          (entryValue k (keyText type p.isReference (Path.elementStart path) k) keyType
            (valueAt resolve nested type p.isReference es k)).outcome = .ok y)
          (elementKeys type p.isReference es path) found ∧
        v = mapOf found := by
  unfold property
  rw [h]
  simp only [mapEntries_eq]
  rw [Traced.outcome_bind_eq_ok_iff]
  simp only [Traced.outcome_mapM_eq_ok_iff, Traced.outcome_pure, Except.ok.injEq, mapOf,
    @eq_comm _ v]

theorem isNull_of_property {v : Value}
    (h : (property resolve nested path p es).outcome = .ok (some v)) : v.isNull = false := by
  match hs : p.shape with
  | .single type =>
    rw [property_single hs] at h
    exact isNull_of_valueAt h
  | .list type =>
    obtain ⟨found, -, hv⟩ := (property_list_eq_ok_iff hs).1 h
    unfold listOf at hv
    split_ifs at hv
    cases hv
    rfl
  | .map key type =>
    obtain ⟨found, -, hv⟩ := (property_map_eq_ok_iff hs).1 h
    unfold mapOf at hv
    split_ifs at hv
    cases hv
    rfl

/-- Where a record holds nothing, there is no value. -/
theorem property_eq_of_empty (hp : path ≠ "")
    (h : ∀ k, Path.Within path k → es.get? k = none) :
    property resolve nested path p es = pure none := by
  have hkeys : ∀ type, elementKeys type p.isReference es path = [] := fun type => by
    refine List.eq_nil_iff_forall_not_mem.2 fun k hk => ?_
    obtain ⟨key, hg, ho⟩ := mem_elementKeys_iff.1 hk
    exact hg (h key (.inr (below_of_owner ho)))
  match hs : p.shape with
  | .single type =>
    rw [property_single hs]
    rcases isLeaf_or_nested type p.isReference with hl | ⟨name, rfl, hr⟩
    · rw [valueAt_of_isLeaf hl, h path (.inl rfl)]
    · rw [hr]
      exact if_pos ((Entries.size_extract_eq_zero_iff hp).2 fun k hk => h k (.inr hk))
  | .list type =>
    unfold property
    rw [hs]
    simp only [elements_eq, hkeys]
    rfl
  | .map key type =>
    unfold property
    rw [hs]
    simp only [mapEntries_eq, hkeys]
    rfl

theorem property_of_empty (hp : path ≠ "") (h : ∀ k, Path.Within path k → es.get? k = none) :
    (property resolve nested path p es).outcome = .ok none := by
  rw [property_eq_of_empty hp h]
  rfl

/-! ## Objects -/

/-- Which type is read depends on the type hint. -/
theorem resolveType_congr {bs : Entries} (h : es.get? Path.hint = bs.get? Path.hint)
    (r : Registry) (path declared : String) :
    resolveType r path declared es = resolveType r path declared bs := by
  unfold resolveType
  rw [h]

theorem find?_of_resolveType {r : Registry} {declared : String} {t : EntityType}
    (h : resolveType r path declared es = .ok t) : ∃ name, r.find? name = some t := by
  unfold resolveType Registry.get at h
  split at h
  · split at h
    · next ht => exact ⟨declared, by rw [ht, Except.ok.inj h]⟩
    · cases h
  · split at h
    · cases h
    · split at h
      · next ht =>
        split at h
        · exact ⟨_, by rw [ht, Except.ok.inj h]⟩
        · cases h
      · cases h

/-- **An object is read exactly if its type is found and each of its properties is read.** -/
theorem object_eq_ok_iff {r : Registry} {depth : Nat} {declared : String} {o : Object} :
    (object r resolve (depth + 1) path declared es).outcome = .ok o ↔
      ∃ t found, resolveType r path declared es = .ok t ∧
        List.Forall₂ (fun p f => f.1 = p.name ∧
            (property resolve (object r resolve depth) (Path.join path p.name) p es).outcome =
              .ok f.2)
          (order t) found ∧
        o = assemble t.name found := by
  rw [object, Traced.outcome_bind_eq_ok_iff]
  simp only [Traced.outcome_liftM, Traced.outcome_bind_eq_ok_iff, Traced.outcome_mapM_eq_ok_iff,
    Traced.outcome_pure, Except.ok.injEq]
  refine exists_congr fun t => ?_
  rw [← exists_and_left]
  refine exists_congr fun found => ?_
  refine and_congr_right fun _ => and_congr ?_ eq_comm
  have : (fun (p : Property) (f : String × Option Value) => ∃ v,
      (property resolve (object r resolve depth) (Path.join path p.name) p es).outcome = .ok v ∧
        (p.name, v) = f) = fun p f => f.1 = p.name ∧
      (property resolve (object r resolve depth) (Path.join path p.name) p es).outcome =
        .ok f.2 := by
    funext p f
    obtain ⟨name, v⟩ := f
    simp only [Prod.mk.injEq, eq_iff_iff]
    constructor
    · rintro ⟨_, hv, rfl, rfl⟩
      exact ⟨rfl, hv⟩
    · rintro ⟨rfl, hv⟩
      exact ⟨v, hv, rfl, rfl⟩
  rw [this]

/-- The fields of an object that was read are what was read for its properties. -/
theorem fields_of_object {r : Registry} {depth : Nat} {declared : String} {o : Object}
    (hr : ∀ name t, r.find? name = some t → (t.properties.map (·.name)).Nodup)
    (h : (object r resolve (depth + 1) path declared es).outcome = .ok o) :
    ∃ t, resolveType r path declared es = .ok t ∧ o.type = t.name ∧
      ∀ p ∈ t.properties,
        (property resolve (object r resolve depth) (Path.join path p.name) p es).outcome =
          .ok (o.get? p.name) := by
  obtain ⟨t, found, ht, hf, rfl⟩ := object_eq_ok_iff.1 h
  obtain ⟨name, hname⟩ := find?_of_resolveType ht
  have hperm : (order t).Perm t.properties := List.filter_append_perm _ _
  have hnames : found.map Prod.fst = (order t).map (·.name) :=
    (Lists.map_eq_map_of_forall₂ hf fun p f h => h.1.symm).symm
  have hnodup : (found.map Prod.fst).Nodup := by
    rw [hnames]
    exact (hperm.map _).nodup_iff.2 (hr name t hname)
  have hnull : ∀ f ∈ found, ∀ w, f.2 = some w → w.isNull = false := fun f hm w hw => by
    obtain ⟨p, -, -, hp⟩ := Lists.exists_left_of_mem hf hm
    rw [hw] at hp
    exact isNull_of_property hp
  refine ⟨t, ht, assemble_type _ _, fun p hp => ?_⟩
  obtain ⟨f, hm, hfst, hread⟩ := Lists.exists_right_of_mem hf (hperm.mem_iff.2 hp)
  rw [hread, get?_assemble hnodup hnull, ← hfst,
    (Lists.lookup_eq_some_iff hnodup).2 hm]
  rfl

end Read

theorem Registry.read_eq_some_iff {r : Registry} {resolve : Resolver} {type : String}
    {es : Entries} {o : Object} :
    (r.read resolve type es).outcome = .ok (some o) ↔
      es.size ≠ 0 ∧ (Read.object r resolve (r.depthFor es) "" type es).outcome = .ok o := by
  unfold Registry.read
  split
  · next hs => exact iff_of_false (fun h => nomatch h) fun h => h.1 hs
  · next hs =>
    rw [Traced.outcome_bind_eq_ok_iff, and_iff_right hs]
    constructor
    · rintro ⟨o', ho, h⟩
      cases h
      exact ho
    · exact fun ho => ⟨o, ho, rfl⟩

end FlatGraph
