import FlatGraph.Proofs.Convert.Met

/-!
# What a record holds

For each object, its entries are prescribed (`Registry.Prescribes`): the hint of the root, a hint
for each object inside whose type is not the declared one, and for each scalar and each reference
an entry at its own path, unless it is empty. Each of them is for a place in the object.

**Theorem (`entries_prescribed`).** The record of an object whose maps tell their keys apart has
these entries and no others, one for each place. It has none at or below a place where there is
nothing to write, and its id is that of the root.

Nothing is overwritten, as sites have regions of their own (`Site.Part.eq_or_apart`): two entries
with the same key are for the same place (`Site.Prescribes.unique`). Nothing is lost
(`Site.Prescribes.mem`), and nothing else is put down (`Site.exists_prescribes`): what a walk leaves
for a site is put down for the site itself, or left for one of the sites in it.
-/

namespace FlatGraph

/-! ## Places -/

/-- What an entry is for: the type of an object, or a value. -/
inductive Mark where
  | hint
  | value
deriving DecidableEq, Repr

/-- The place of an entry in an object. -/
structure Place where
  address : List Hop
  mark : Mark
deriving DecidableEq, Repr

namespace Site

variable {r : Registry} {s s' : Site} {hops a b : List Hop} {m n : Mark} {x y : String × Bytes}

/-- The entry for a site itself. -/
inductive Puts (r : Registry) : Site → Mark → String × Bytes → Prop
  /-- The type of an object that is stored inside, if it is not the declared one. -/
  | hint {path declared type : String} {fields : List (String × Value)} (hd : type ≠ declared) :
      Puts r ⟨.element (.entity declared) false, path, .object type fields⟩ .hint
        (Path.hintOf path, Utf8.encode type)
  /-- An id that is not empty. -/
  | id {path text : String} {p : Property} {v : Value} (hid : p.isId = true)
      (ht : v.toText = .ok text) (hne : text ≠ "") :
      Puts r ⟨.property p, path, v⟩ .value (path, Utf8.encode text)
  /-- A scalar that is not empty. -/
  | scalar {path : String} {type : ScalarType} {reference : Bool} {v : Value} {bs : Bytes}
      (hb : type.encode v = .ok bs) (hne : bs ≠ []) :
      Puts r ⟨.element (.scalar type) reference, path, v⟩ .value (path, bs)
  /-- The keyspace and the id of an object that is only referred to. -/
  | pointer {path declared type : String} {fields : List (String × Value)} {reference : Reference}
      (hr : r.reference? declared ⟨type, fields⟩ = some reference) :
      Puts r ⟨.element (.entity declared) true, path, .object type fields⟩ .value
        (path, Utf8.encode (Path.entityKey reference.keyspace reference.id))

/-- The entry for a place in a site. -/
def Prescribes (r : Registry) (s : Site) (place : Place) (x : String × Bytes) : Prop :=
  ∃ s', s.Leads r place.address s' ∧ s'.Puts r place.mark x

/-! ## Nothing is overwritten -/

theorem Puts.unique (h : s.Puts r m x) (h' : s.Puts r n y) : m = n ∧ x = y := by
  cases h with
  | hint =>
    cases h'
    exact ⟨rfl, rfl⟩
  | id hid ht =>
    cases h' with
    | id _ ht' =>
      cases ht.symm.trans ht'
      exact ⟨rfl, rfl⟩
  | scalar hb =>
    cases h' with
    | scalar hb' =>
      cases hb.symm.trans hb'
      exact ⟨rfl, rfl⟩
  | pointer hr =>
    cases h' with
    | pointer hr' =>
      cases hr.symm.trans hr'
      exact ⟨rfl, rfl⟩

theorem Puts.region (h : s.Puts r m x) (hs : s.path ≠ "") : s.Region x.1 := by
  cases h with
  | hint => exact (covers_nested_iff rfl).2 (Path.below_hintOf hs).within
  | id => exact Path.Within.self _
  | @scalar _ _ reference => exact (covers_leaf_iff (by cases reference <;> rfl)).2 rfl
  | pointer => exact (covers_leaf_iff rfl).2 rfl

/-- The entries for the places in a site are in its region of the record. -/
theorem Prescribes.region (hn : r.Named) {place : Place} (h : s.Prescribes r place x)
    (hs : s.path ≠ "") : s.Region x.1 := by
  obtain ⟨s', hl, hp⟩ := h
  exact hl.region hn hs (hp.region (hl.path_ne_empty hn hs))

/-- The entry for a site is in the region of no site in it. -/
theorem Puts.not_region_of_part (hn : r.Named) (h : s.Puts r m x) (hp : Part r s hops s') :
    hops ≠ [] ∧ ¬ s'.Region x.1 := by
  cases h with
  | @hint path =>
    cases hp with
    | field ht hp =>
      exact ⟨List.cons_ne_nil _ _, Path.not_within_join_hintOf (hn.isName _ _ ht _ hp)⟩
  | id hid =>
    cases hp with
    | single hid' | item hid' | entry hid' => cases hid.symm.trans hid'
  | scalar | pointer => cases hp

/-- The entry for a site is none for a site in it. -/
theorem Puts.ne_of_part (hn : r.Named) (h : s.Puts r m x) (hp : Part r s hops s') {place : Place}
    (h' : s'.Prescribes r place y) : hops ≠ [] ∧ x.1 ≠ y.1 := by
  obtain ⟨hne, hapart⟩ := h.not_region_of_part hn hp
  refine ⟨hne, fun hxy => hapart ?_⟩
  rw [hxy]
  exact h'.region hn (hp.path_ne_empty hn fun h => absurd h hne)

/-- **Entries for different places have different keys.** -/
theorem Prescribes.unique (hn : r.Named) (hk : s.KeysDiffer r) {p q : Place}
    (h : s.Prescribes r p x) (h' : s.Prescribes r q y) (heq : p = q ∨ x.1 = y.1) :
    p = q ∧ x = y := by
  obtain ⟨a, m⟩ := p
  obtain ⟨b, n⟩ := q
  obtain ⟨there, hl, hput⟩ := h
  dsimp only at hl hput
  -- along the way to the first entry: the way to the second one goes on with it, or parts from it
  induction hl generalizing b with
  | here s =>
    obtain ⟨there', hl', hput'⟩ := h'
    dsimp only at hl' hput'
    cases hl' with
    | here =>
      obtain ⟨rfl, rfl⟩ := hput.unique hput'
      exact ⟨rfl, rfl⟩
    | @step _ s₂ _ hops b hp hrest =>
      have hy : s₂.Prescribes r ⟨b, n⟩ y := ⟨_, hrest, hput'⟩
      obtain ⟨hne, hkey⟩ := hput.ne_of_part hn hp hy
      simp [hne, hkey] at heq
  | @step s s₁ there hops a hp hrest ih =>
    have hx : s₁.Prescribes r ⟨a, m⟩ x := ⟨_, hrest, hput⟩
    obtain ⟨there', hl', hput'⟩ := h'
    dsimp only at hl' hput'
    cases hl' with
    | here =>
      obtain ⟨hne, hkey⟩ := hput'.ne_of_part hn hp hx
      simp [hne, hkey.symm] at heq
    | @step _ s₂ _ hops' b hp' hrest' =>
      have hy : s₂.Prescribes r ⟨b, n⟩ y := ⟨_, hrest', hput'⟩
      obtain ⟨rfl, rfl⟩ | ⟨hop, hop', rfl, rfl, hne, hapart⟩ := hp.eq_or_apart hn hk hp'
      · obtain ⟨hplace, hxy⟩ := ih (hk.of_part hp) b hy (by simpa using heq) hput
        simpa [hxy] using hplace
      · have hkey : x.1 ≠ y.1 := fun hxy => by
          have hregion : s₁.Region x.1 := hx.region hn (hp.path_ne_empty hn fun h => nomatch h)
          have hregion' : s₂.Region y.1 := hy.region hn (hp'.path_ne_empty hn fun h => nomatch h)
          exact hapart _ hregion (hxy ▸ hregion')
        simp [hne, hkey] at heq

/-- What is in the region of a site is for a place in that site. -/
theorem Prescribes.of_region (hn : r.Named) (hk : s.KeysDiffer r) (hl : s.Leads r a s')
    {place : Place} (h : s.Prescribes r place x) (hr : s'.Region x.1) :
    ∃ place', s'.Prescribes r place' x := by
  induction hl generalizing place with
  | here => exact ⟨place, h⟩
  | @step s s₁ s' hops a hp hrest ih =>
    obtain ⟨address, mark⟩ := place
    obtain ⟨there, hl', hput⟩ := h
    dsimp only at hl' hput
    cases hl' with
    | here =>
      obtain ⟨hne, hapart⟩ := hput.not_region_of_part hn hp
      exact absurd (hrest.region hn (hp.path_ne_empty hn fun h => absurd h hne) hr) hapart
    | @step _ s₂ _ hops' b hp' hrest' =>
      have hx : s₂.Prescribes r ⟨b, mark⟩ x := ⟨_, hrest', hput⟩
      obtain ⟨rfl, rfl⟩ | ⟨hop, hop', rfl, rfl, -, hapart⟩ := hp.eq_or_apart hn hk hp'
      · exact ih (hk.of_part hp) hx hr
      · have hregion := hrest.region hn (hp.path_ne_empty hn fun h => nomatch h) hr
        exact absurd (hx.region hn (hp'.path_ne_empty hn fun h => nomatch h)) (hapart _ hregion)

/-! ## Nothing is lost -/

variable {xs : List (String × Bytes)}

theorem Puts.mem (he : r.NoEmptyType) (h : s.Puts r m x) (hl : Write.Leaves (s.walk r) xs) :
    x ∈ xs ∧ x.2 ≠ [] := by
  cases h with
  | hint hd =>
    obtain ⟨_, _, t, ys, heq, ht, -, -, rfl⟩ := (Write.leaves_nested_iff rfl).1 hl
    cases heq
    exact ⟨by simp [Write.hints, hd], mt Utf8.encode_eq_nil_iff.1 (he _ t ht)⟩
  | id hid ht hne =>
    obtain ⟨text, htext, rfl⟩ := (Write.leaves_property_of_isId hid).1 hl
    cases ht.symm.trans (Write.idText_eq_ok_iff.1 htext).2
    exact ⟨List.mem_singleton_self _, mt Utf8.encode_eq_nil_iff.1 hne⟩
  | @scalar path type reference v bs hb hne =>
    have hv : v.isNull = false := by
      cases v with
      | null =>
        cases hb
        exact absurd rfl hne
      | _ => rfl
    obtain ⟨bs', hb', rfl⟩ := (Write.leaves_element_scalar_iff hv).1 hl
    cases hb.symm.trans (Write.encode_eq_ok_iff.1 hb')
    exact ⟨List.mem_singleton_self _, hne⟩
  | @pointer path declared type fields reference hr =>
    obtain ⟨_, _, text, heq, htext, rfl⟩ := (Write.leaves_reference_iff rfl).1 hl
    cases heq
    obtain ⟨reference', hr', -, rfl⟩ := (Link.pointer_eq_ok_iff declared).1 htext
    cases hr.symm.trans hr'
    exact ⟨List.mem_singleton_self _, Link.encode_entityKey_ne_nil _ _⟩

/-- **The entry for a place is left by the walk.** -/
theorem Prescribes.mem (he : r.NoEmptyType) {place : Place} (h : s.Prescribes r place x)
    (hl : Write.Leaves (s.walk r) xs) : x ∈ xs ∧ x.2 ≠ [] := by
  obtain ⟨s', hs, hp⟩ := h
  obtain ⟨ys, hy, hsub⟩ := hs.leaves hl
  obtain ⟨hm, hne⟩ := hp.mem he hy
  exact ⟨hsub hm, hne⟩

/-- A reference is known by an id, and put down as a pointer. -/
theorem exists_puts_of_reference {path declared : String} {v : Value} (hv : v ≠ .null)
    (hl : Write.Leaves (walk r ⟨.element (.entity declared) true, path, v⟩) xs) :
    ∃ bs, Puts r ⟨.element (.entity declared) true, path, v⟩ .value (path, bs) := by
  have hnull : v.isNull = false := by
    cases v with
    | null => exact absurd rfl hv
    | _ => rfl
  obtain ⟨type, fields, text, rfl, htext, -⟩ := (Write.leaves_reference_iff hnull).1 hl
  obtain ⟨reference, hr, -, -⟩ := (Link.pointer_eq_ok_iff declared).1 htext
  exact ⟨_, .pointer hr⟩

/-! ## Nothing else is put down -/

/-- What a walk leaves for an element is put down for it, or left for a field of an object. -/
theorem exists_of_leaves_element {path : String} {type : TypeRef} {reference : Bool} {v : Value}
    (hl : Write.Leaves (Write.element r path type reference v) xs) (hx : x ∈ xs) (hne : x.2 ≠ []) :
    (∃ m, Puts r ⟨.element type reference, path, v⟩ m x) ∨
      ∃ hops s' ys, Part r ⟨.element type reference, path, v⟩ hops s' ∧
        Write.Leaves (s'.walk r) ys ∧ x ∈ ys := by
  by_cases hv : v.isNull = true
  · rw [Value.eq_null_of_isNull hv] at hl
    rw [Write.leaves_element_null_iff.1 hl] at hx
    cases hx
  rw [Bool.not_eq_true] at hv
  match type, reference with
  | .scalar type, reference =>
    obtain ⟨bs, hb, rfl⟩ := (Write.leaves_element_scalar_iff hv).1 hl
    cases List.mem_singleton.1 hx
    exact .inl ⟨_, .scalar (Write.encode_eq_ok_iff.1 hb) hne⟩
  | .entity declared, true =>
    obtain ⟨name, fields, text, rfl, htext, rfl⟩ := (Write.leaves_reference_iff hv).1 hl
    obtain ⟨reference, hr, -, rfl⟩ := (Link.pointer_eq_ok_iff declared).1 htext
    cases List.mem_singleton.1 hx
    exact .inl ⟨_, .pointer hr⟩
  | .entity declared, false =>
    obtain ⟨name, fields, t, ys, rfl, ht, -, hy, rfl⟩ := (Write.leaves_nested_iff hv).1 hl
    rcases List.mem_append.1 hx with hx | hx
    · unfold Write.hints at hx
      split_ifs at hx with hd
      · cases hx
      · cases List.mem_singleton.1 hx
        exact .inl ⟨_, .hint hd⟩
    · obtain ⟨parts, hparts, rfl⟩ := Write.leaves_properties_iff.1 hy
      obtain ⟨zs, hz, hx⟩ := List.mem_flatten.1 hx
      obtain ⟨p, hp, hat⟩ := Lists.exists_left_of_mem hparts hz
      cases hw : Fields.get? fields p.name with
      | none =>
        rw [hw] at hat
        rw [show zs = [] from hat] at hx
        cases hx
      | some w =>
        rw [hw] at hat
        exact .inr ⟨_, _, zs, .field ht hp hw, hat, hx⟩

/-- What a walk leaves for a property is put down for its id, or left for one of its values. -/
theorem exists_of_leaves_property {path : String} {p : Property} {v : Value}
    (hl : Write.Leaves (Write.property r false path p v) xs) (hx : x ∈ xs) (hne : x.2 ≠ []) :
    (∃ m, Puts r ⟨.property p, path, v⟩ m x) ∨
      ∃ hops s' ys, Part r ⟨.property p, path, v⟩ hops s' ∧
        Write.Leaves (s'.walk r) ys ∧ x ∈ ys := by
  by_cases hid : p.isId = true
  · obtain ⟨text, htext, rfl⟩ := (Write.leaves_property_of_isId hid).1 hl
    cases List.mem_singleton.1 hx
    exact .inl ⟨_, .id hid (Write.idText_eq_ok_iff.1 htext).2 (mt Utf8.encode_eq_nil_iff.2 hne)⟩
  rw [Bool.not_eq_true] at hid
  cases hs : p.shape with
  | single type =>
    exact .inr ⟨_, _, xs, .single hid hs, (Write.leaves_property_single_iff hid hs).1 hl, hx⟩
  | list type =>
    obtain ⟨items, rfl, hitems⟩ := (Write.leaves_property_list_iff hid hs).1 hl
    obtain ⟨parts, hparts, rfl⟩ := Write.leaves_elements_iff.1 hitems
    obtain ⟨ys, hy, hx⟩ := List.mem_flatten.1 hx
    obtain ⟨item, hm, hleaves⟩ := Lists.exists_left_of_mem hparts hy
    exact .inr ⟨_, _, ys, .item hid hs (List.mem_zipIdx_iff_getElem?.1 hm), hleaves, hx⟩
  | map key type =>
    obtain ⟨entries, rfl, hentries⟩ := (Write.leaves_property_map_iff hid hs).1 hl
    obtain ⟨parts, hparts, rfl⟩ := Write.leaves_mapEntries_iff.1 hentries
    obtain ⟨ys, hy, hx⟩ := List.mem_flatten.1 hx
    obtain ⟨e, hm, bs, hb, hleaves⟩ := Lists.exists_left_of_mem hparts hy
    obtain ⟨i, hi⟩ := List.mem_iff_getElem?.1 hm
    have htext : key.keyText e.1 = .ok (Utf8.lossy bs) :=
      Outcome.map_eq_ok_iff.2 ⟨bs, Write.encode_eq_ok_iff.1 hb, rfl⟩
    exact .inr ⟨_, _, ys, .entry hid hs hi htext, hleaves, hx⟩

/-- One step down: what a walk leaves for a site is put down for it, or left for a site in it. -/
theorem exists_puts_or_part (hl : Write.Leaves (s.walk r) xs) (hx : x ∈ xs) (hne : x.2 ≠ []) :
    (∃ m, s.Puts r m x) ∨
      ∃ hops s' ys, Part r s hops s' ∧ Write.Leaves (s'.walk r) ys ∧ x ∈ ys := by
  obtain ⟨_ | _, path, v⟩ := s
  · exact exists_of_leaves_property hl hx hne
  · exact exists_of_leaves_element hl hx hne

/-- **What a walk leaves is the entry for a place.** -/
theorem exists_prescribes (s : Site) (xs : List (String × Bytes))
    (hl : Write.Leaves (s.walk r) xs) (hx : x ∈ xs) (hne : x.2 ≠ []) :
    ∃ place, s.Prescribes r place x := by
  obtain ⟨m, hp⟩ | ⟨hops, s', ys, hp, hy, hx'⟩ := exists_puts_or_part hl hx hne
  · exact ⟨⟨[], m⟩, s, .here s, hp⟩
  · obtain ⟨place, there, hs, hput⟩ := exists_prescribes s' ys hy hx' hne
    exact ⟨⟨hops ++ place.address, place.mark⟩, there, .step hp hs, hput⟩
termination_by s.size
decreasing_by exact hp.size_lt

/-! ## Places without entries -/

theorem Puts.value_eq (h : s.Puts r m x) :
    (∃ type fields, s.value = .object type fields) ∨ s.value.isScalar = true := by
  cases h with
  | hint | pointer => exact .inl ⟨_, _, rfl⟩
  | @id _ _ _ v _ ht hne =>
    refine .inr ?_
    cases v with
    | null =>
      cases ht
      exact absurd rfl hne
    | list | map | object => cases ht
    | _ => rfl
  | @scalar _ _ _ v _ hb hne =>
    refine .inr ?_
    cases v with
    | null =>
      cases hb
      exact absurd rfl hne
    | list | map | object => cases hb
    | _ => rfl

end Site

namespace Registry

variable {r : Registry} {o : Object} {ix : Indexes} {record : Record}

/-- The entry for a place in an object: the hint of the root, or the one for a site in it. -/
inductive Prescribes (r : Registry) (o : Object) : Place → String × Bytes → Prop
  | root : Prescribes r o ⟨[], .hint⟩ (Path.hint, Utf8.encode o.type)
  | site {place : Place} {x : String × Bytes} (h : o.site.Prescribes r place x) :
      Prescribes r o place x

/-- An address in an object where there is nothing to write: no value, a list or a map without
elements, or a field that is no property. -/
inductive Void (r : Registry) (o : Object) : List Hop → Prop
  | bare {address : List Hop} {v : Value} (h : o.toValue.at? address = some v)
      (hv : v = .null ∨ v = .list [] ∨ v = .map []) : Void r o address
  | field {address : List Hop} {type name : String} {fields : List (String × Value)}
      {t : EntityType} (h : o.toValue.at? address = some (.object type fields))
      (ht : r.find? type = some t) (hn : ∀ p ∈ t.properties, p.name ≠ name) :
      Void r o (address ++ [.field name])

theorem eq_of_at?_bare {v w : Value} {address : List Hop}
    (hv : v = .null ∨ v = .list [] ∨ v = .map []) (h : v.at? address = some w) : w = v := by
  cases address with
  | nil =>
    cases h
    rfl
  | cons hop address =>
    have hnone : v.follow? hop = none := by
      obtain rfl | rfl | rfl := hv <;> cases hop <;> rfl
    rw [Value.at?, List.foldlM_cons, hnone] at h
    cases h

/-- Nothing is prescribed at or below an address where there is nothing to write. -/
theorem Void.not_prefix {address : List Hop} (h : r.Void o address) {place : Place}
    {x : String × Bytes} (hx : r.Prescribes o place x) : ¬ address <+: place.address := by
  rintro ⟨rest, hrest⟩
  obtain ⟨s, hl, hs⟩ : ∃ s, o.site.Leads r place.address s ∧
      ((∃ type fields, s.value = .object type fields) ∨ s.value.isScalar = true) := by
    cases hx with
    | root => exact ⟨_, .here _, .inl ⟨_, _, rfl⟩⟩
    | site hx =>
      obtain ⟨s, hl, hput⟩ := hx
      exact ⟨s, hl, hput.value_eq⟩
  rw [← hrest] at hl
  cases h with
  | bare h hv =>
    have hat := hl.at?_eq
    rw [Value.at?_append, show o.site.value = o.toValue from rfl, h, Option.bind_some] at hat
    rw [eq_of_at?_bare hv hat] at hs
    obtain rfl | rfl | rfl := hv <;> simp [Value.isScalar, Value.kind, Kind.isScalar] at hs
  | field h ht hn =>
    rw [List.append_assoc, Site.leads_append_iff] at hl
    obtain ⟨there, ha, hb⟩ := hl
    have hvalue := Option.some.inj (ha.at?_eq.symm.trans h)
    obtain ⟨p, hp, hname⟩ := Site.exists_property_of_leads hb hvalue ht
    exact hn p hp hname

/-- The entries for the places in an object that is a root are in the regions of its properties. -/
theorem within_of_prescribes (hn : r.Named) {place : Place} {x : String × Bytes}
    (h : o.site.Prescribes r place x) :
    place.address ≠ [] ∧ ∃ name, Path.IsName name ∧ Path.Within (Path.join "" name) x.1 := by
  obtain ⟨address, mark⟩ := place
  obtain ⟨s, hl, hput⟩ := h
  dsimp only at hl hput
  cases hl with
  | here =>
    cases hput with
    | hint hd => exact absurd rfl hd
  | @step _ s' _ hops address hp hrest =>
    have hx : s'.Prescribes r ⟨address, mark⟩ x := ⟨s, hrest, hput⟩
    cases hp with
    | @field _ _ _ _ _ p _ ht hp =>
      have hname := hn.isName _ _ ht _ hp
      have hpath : Path.join "" p.name ≠ "" := Path.join_ne_empty hname.ne_empty
      exact ⟨List.cons_ne_nil _ _, p.name, hname, hx.region hn hpath⟩

theorem Prescribes.unique (hn : r.Named) (hk : o.site.KeysDiffer r) {p q : Place}
    {x y : String × Bytes} (h : r.Prescribes o p x) (h' : r.Prescribes o q y)
    (heq : p = q ∨ x.1 = y.1) : p = q ∧ x = y := by
  have hroot : ∀ {q : Place} {y : String × Bytes}, o.site.Prescribes r q y →
      q ≠ ⟨[], .hint⟩ ∧ y.1 ≠ Path.hint := fun h => by
    obtain ⟨hne, name, hname, hw⟩ := within_of_prescribes hn h
    refine ⟨fun hq => hne (hq ▸ rfl), fun hkey => ?_⟩
    exact Path.not_within_join_hint hname (hkey ▸ hw)
  cases h with
  | root =>
    cases h' with
    | root => exact ⟨rfl, rfl⟩
    | site h' => exact absurd heq (by simp [(hroot h').1.symm, (hroot h').2.symm])
  | site h =>
    cases h' with
    | root => exact absurd heq (by simp [hroot h])
    | site h' => exact h.unique hn hk h' heq

/-- The record of an object holds the hint of the root, and what the walk over it leaves. -/
theorem exists_leaves_of_write (h : (r.write ix o).1 = .ok record) :
    ∃ t ys, r.find? o.type = some t ∧ Write.Leaves (o.site.walk r) ys ∧
      record.entries = Entries.empty.putAll ((Path.hint, Utf8.encode o.type) :: ys) := by
  obtain ⟨t, xs, ht, hl, hentries⟩ := Write.write_entries_iff.1 ⟨record, h, rfl⟩
  obtain ⟨ys, hy, rfl⟩ := Write.leaves_outline_iff.1 hl
  refine ⟨t, ys, ht, (Write.leaves_nested_iff rfl).2 ?_, hentries⟩
  refine ⟨o.type, o.fields, t, ys, rfl, ht, .inl rfl, leaves_properties_root_iff.1 hy, ?_⟩
  rw [Write.hints, if_pos rfl, List.nil_append]

/-- What is left for an object is prescribed for it. -/
theorem exists_prescribes_of_leaves {ys : List (String × Bytes)}
    (hl : Write.Leaves (o.site.walk r) ys) {y : String × Bytes}
    (hy : y ∈ (Path.hint, Utf8.encode o.type) :: ys) (hne : y.2 ≠ []) :
    ∃ place, r.Prescribes o place y := by
  rcases List.mem_cons.1 hy with rfl | hy
  · exact ⟨_, .root⟩
  · exact (Site.exists_prescribes o.site ys hl hy hne).imp fun _ => .site

/-- What the record of an object holds is prescribed for it. -/
theorem exists_prescribes_of_write (h : (r.write ix o).1 = .ok record) {key : String}
    {value : Bytes} (hx : record.entries.get? key = some value) :
    ∃ place, r.Prescribes o place (key, value) := by
  obtain ⟨t, ys, -, hwalk, hentries⟩ := exists_leaves_of_write h
  have hne := (Entries.ne_empty_of_get? hx).2
  rw [hentries] at hx
  exact exists_prescribes_of_leaves hwalk (Entries.mem_of_lastOf hx) hne

/-- The record of an object has the entries that are prescribed for it. -/
theorem mem_entries_iff (hn : r.Named) (he : r.NoEmptyType) (hk : o.site.KeysDiffer r)
    (h : (r.write ix o).1 = .ok record) {x : String × Bytes} :
    x ∈ record.entries.toList ↔ ∃ place, r.Prescribes o place x := by
  obtain ⟨t, ys, ht, hwalk, hentries⟩ := exists_leaves_of_write h
  rw [hentries, Entries.mem_toList_putAll_iff fun y hy z hz hne hne' hkey => by
    obtain ⟨p, hp⟩ := exists_prescribes_of_leaves hwalk hy hne
    obtain ⟨q, hq⟩ := exists_prescribes_of_leaves hwalk hz hne'
    exact (hp.unique hn hk hq (.inr hkey)).2]
  constructor
  · rintro ⟨hx, -, hne⟩
    exact exists_prescribes_of_leaves hwalk hx hne
  · rintro ⟨place, hx⟩
    cases hx with
    | root =>
      have hhint : Path.hint ≠ "" := by decide
      exact ⟨List.mem_cons_self, hhint, mt Utf8.encode_eq_nil_iff.1 (he _ t ht)⟩
    | site hx =>
      obtain ⟨hm, hne⟩ := hx.mem he hwalk
      obtain ⟨-, name, hname, hw⟩ := within_of_prescribes hn hx
      exact ⟨List.mem_cons_of_mem _ hm,
        Path.ne_empty_of_within (Path.join_ne_empty hname.ne_empty) hw, hne⟩

/-! ## Ids -/

/-- The text of the id of an object, if it has one that is not empty. -/
def idText? (r : Registry) (o : Object) : Option String :=
  ((r.reference? o.type o).map (·.id)).filter (· ≠ "")

theorem idText?_eq_some_iff {id : String} :
    r.idText? o = some id ↔ ∃ t p v, r.find? o.type = some t ∧ t.idProperty? = some p ∧
      o.get? p.name = some v ∧ v.toText = .ok id ∧ id ≠ "" := by
  simp only [idText?, Option.filter_eq_some_iff, Option.map_eq_some_iff,
    Link.reference?_eq_some_iff, decide_eq_true_eq]
  constructor
  · rintro ⟨⟨_, ⟨t, p, v, id, ht, hp, hv, hid, rfl⟩, rfl⟩, hne⟩
    exact ⟨t, p, v, ht, hp, hv, hid, hne⟩
  · rintro ⟨t, p, v, ht, hp, hv, hid, hne⟩
    exact ⟨⟨_, ⟨t, p, v, id, ht, hp, hv, hid, rfl⟩, rfl⟩, hne⟩

/-- The walk over an object gives the id of the object, and no id of an object inside. -/
theorem identify_mem_outline_iff (hb : r.Built) (h : (r.write ix o).1 = .ok record)
    {t : EntityType} (ht : r.find? o.type = some t) {id : String} :
    .identify id ∈ (r.outline t o).trace ↔ r.idText? o = some id := by
  rw [idText?_eq_some_iff]
  constructor
  · intro hmem
    obtain ⟨p, hp, v, hv, hgives | ⟨_, q, _, w, -, hgives⟩⟩ :=
      r.mem_outline (s := .identify id) nofun hmem
    · cases hgives with
      | identify _ hid htext hne =>
        exact ⟨t, p, v, ht, (hb.sound ht).2.idProperty?_eq hp hid, hv, htext, hne⟩
    · cases hgives with
      | identify hroot => cases hroot
  · rintro ⟨t', p, v, ht', hp, hv, htext, hne⟩
    cases ht.symm.trans ht'
    exact identify_mem_of_write h ht (List.mem_of_find?_eq_some hp) (List.find?_some hp) hv htext
      hne

/-- The record of an object has the id of the object. -/
theorem id_of_write (hb : r.Built) (h : (r.write ix o).1 = .ok record) :
    record.id = r.idText? o := by
  obtain ⟨t, ht, -⟩ := keyspace_of_write h
  rw [(record_of_write h ht).2, Step.id_foldl_apply, Option.or_none]
  cases hlast : (Step.ids (r.outline t o).trace).getLast? with
  | some id =>
    have hmem := Step.mem_ids_iff.1 (List.mem_of_getLast? hlast)
    exact ((identify_mem_outline_iff hb h ht).1 hmem).symm
  | none =>
    cases hid : r.idText? o with
    | none => rfl
    | some id =>
      have hmem := Step.mem_ids_iff.2 ((identify_mem_outline_iff hb h ht).2 hid)
      rw [List.getLast?_eq_none_iff.1 hlast] at hmem
      cases hmem

/-! ## Records -/

/-- Each reference in an object that was written has an entry. -/
theorem exists_pointer (h : (r.write ix o).1 = .ok record) {address : List Hop}
    {path declared : String} {v : Value} (hv : v ≠ .null)
    (hl : o.site.Leads r address ⟨.element (.entity declared) true, path, v⟩) :
    ∃ bs, r.Prescribes o ⟨address, .value⟩ (path, bs) := by
  obtain ⟨t, ys, -, hwalk, -⟩ := exists_leaves_of_write h
  obtain ⟨zs, hz, -⟩ := hl.leaves hwalk
  exact (Site.exists_puts_of_reference hv hz).imp fun bs hput => .site ⟨_, hl, hput⟩

/-- **The entries of a record are the prescribed ones, one for each place.** None of them is empty,
each reference has one, there is none at or below a place where there is nothing to write, and the
id of the record is that of the root. -/
theorem entries_prescribed (hb : r.Built) (hn : r.Named) (he : r.NoEmptyType)
    (hk : o.site.KeysDiffer r) (h : (r.write ix o).1 = .ok record) :
    (∀ x, x ∈ record.entries.toList ↔ ∃ place, r.Prescribes o place x) ∧
    (∀ p q x y, r.Prescribes o p x → r.Prescribes o q y → (p = q ↔ x = y)) ∧
    (∀ x ∈ record.entries.toList, x.1 ≠ "" ∧ x.2 ≠ []) ∧
    (∀ address path declared v,
      o.site.Leads r address ⟨.element (.entity declared) true, path, v⟩ → v ≠ .null →
        ∃ bs, r.Prescribes o ⟨address, .value⟩ (path, bs)) ∧
    (∀ address, r.Void o address → ∀ place x, r.Prescribes o place x →
      ¬ address <+: place.address) ∧
    record.id = r.idText? o := by
  refine ⟨fun x => mem_entries_iff hn he hk h, fun p q x y hx hy => ⟨fun hpq => ?_, fun hxy => ?_⟩,
    record.entries.filled, fun _ _ _ _ hl hv => exists_pointer h hv hl,
    fun _ hvoid _ _ hx => hvoid.not_prefix hx, id_of_write hb h⟩
  · exact (hx.unique hn hk hy (.inl hpq)).2
  · exact (hx.unique hn hk hy (.inr (hxy ▸ rfl))).1

end Registry

/-! ## Crates -/

namespace Crates

/-- The mark on a crate. -/
def mark : Property := { name := "mark", shape := .single (.scalar .text), isId := true }

/-- The crate in which a crate is. -/
def outer : Property := { name := "outer", shape := .single (.entity "Crate"), isReference := true }

/-- What is written on a crate, by languages. -/
def labels : Property := { name := "labels", shape := .map .text (.scalar .text) }

/-- What is in a crate. -/
def content : Property := { name := "content", shape := .list (.entity "Thing") }

def crate : EntityType := { name := "Crate", properties := [mark, outer, labels, content] }

def thing : EntityType := { name := "Thing" }

/-- A tool is a thing. -/
def tool : EntityType := { name := "Tool", parent := some "Thing" }

/-- The registry of crates. -/
def crates : Registry :=
  ⟨[("Crate", crate), ("Thing", thing), ("Tool", tool.extending thing)]⟩

theorem built_crates : crates.Built :=
  .register (.register (.register .empty (t := crate) (by rfl)) (t := thing) (by rfl)) (t := tool)
    (by rfl)

theorem named_crates : crates.Named := .of_types (by decide)

theorem noEmptyType_crates : crates.NoEmptyType := .of_types (by decide)

/-- A crate with a tool. Its label is translated into nothing, and a note on it is no property. -/
def toolbox : Object where
  type := "Crate"
  fields := [("mark", .text "c1"),
    ("outer", .object "Crate" [("mark", .text "c2")]),
    ("labels", .map [(.text "en", .text "tools"), (.text "xx", .text "")]),
    ("content", .list [.null, .object "Tool" []]),
    ("note", .text "fragile")]

theorem exists_write_toolbox : ∃ record, (crates.write {} toolbox).1 = .ok record :=
  Outcome.exists_of_isOk (by decide +kernel)

/-- The keys of the labels are told apart. -/
theorem keysDiffer_toolbox : toolbox.site.KeysDiffer crates := by
  intro address path p key type entries h hs
  obtain _ | ⟨hp, h⟩ := h
  obtain @⟨_, _, _, _, t, q, v, ht, hq, hv⟩ := hp
  cases ht
  simp only [crate, List.mem_cons, List.not_mem_nil, or_false] at hq
  obtain rfl | rfl | rfl | rfl := hq <;> cases hv
  · obtain _ | ⟨hp, h⟩ := h
    cases hp with
    | single hid => cases hid
  · obtain _ | ⟨hp, h⟩ := h
    cases hp with
    | single _ hs =>
      cases hs
      obtain _ | ⟨hp, h⟩ := h
      cases hp
  · cases h with
    | here =>
      cases hs
      have htext : ∀ s, ScalarType.text.keyText (.text s) = .ok s := fun s =>
        congrArg Except.ok (Utf8.lossy_encode s)
      exact ⟨by simp [htext], fun hl => nomatch hl⟩
    | step hp h =>
      cases hp with
      | single _ hs => cases hs
      | entry _ hs =>
        cases hs
        obtain _ | ⟨hp, h⟩ := h
        cases hp
  · obtain _ | ⟨hp, h⟩ := h
    cases hp with
    | single _ hs => cases hs
    | item _ hs hi =>
      cases hs
      have hm := List.mem_of_getElem? hi
      simp only [List.mem_cons, List.not_mem_nil, or_false] at hm
      obtain rfl | rfl := hm
      · obtain _ | ⟨hp, h⟩ := h
        cases hp
      · obtain _ | ⟨hp, h⟩ := h
        cases hp with
        | field ht hp =>
          cases ht
          cases hp

theorem hint_tool : crates.Prescribes toolbox ⟨[.field "content", .item 1], .hint⟩
    ("content.[1]._class", Utf8.encode "Tool") := by
  have hthing : "Tool" ≠ "Thing" := by decide
  have hleads : Site.Leads crates toolbox.site ([.field "content"] ++ ([.item 1] ++ []))
      ⟨.element (.entity "Thing") false, "content.[1]", .object "Tool" []⟩ :=
    .step (.field (t := crate) (p := content) rfl (by decide) rfl)
      (.step (.item rfl rfl rfl) (.here _))
  exact .site ⟨_, hleads, .hint hthing⟩

theorem pointer_outer : crates.Prescribes toolbox ⟨[.field "outer"], .value⟩
    ("outer", Utf8.encode (Path.entityKey "Crate" "c2")) := by
  have hcrate : crates.reference? "Crate" ⟨"Crate", [("mark", .text "c2")]⟩ =
      some ⟨"c2", "Crate", "Crate"⟩ := rfl
  have hleads : Site.Leads crates toolbox.site ([.field "outer"] ++ ([] ++ []))
      ⟨.element (.entity "Crate") true, "outer", .object "Crate" [("mark", .text "c2")]⟩ :=
    .step (.field (t := crate) (p := outer) rfl (by decide) rfl)
      (.step (.single rfl rfl) (.here _))
  have hput := @Site.Puts.pointer crates "outer" "Crate" "Crate" [("mark", .text "c2")] _ hcrate
  exact .site ⟨_, hleads, hput⟩

/-- The record of the crate has a hint for the tool and a pointer to the other crate, and nothing
for the note. -/
theorem entries_prescribed_toolbox : ∃ record, (crates.write {} toolbox).1 = .ok record ∧
    (∀ x, x ∈ record.entries.toList ↔ ∃ place, crates.Prescribes toolbox place x) ∧
    ("content.[1]._class", Utf8.encode "Tool") ∈ record.entries.toList ∧
    ("outer", Utf8.encode (Path.entityKey "Crate" "c2")) ∈ record.entries.toList ∧
    (∀ place x, crates.Prescribes toolbox place x → ¬ [.field "note"] <+: place.address) ∧
    record.id = some "c1" := by
  obtain ⟨record, h⟩ := exists_write_toolbox
  obtain ⟨hentries, -, -, -, hvoid, hid⟩ := Registry.entries_prescribed built_crates
    named_crates noEmptyType_crates keysDiffer_toolbox h
  have hnote : crates.Void toolbox ([] ++ [.field "note"]) :=
    .field rfl (t := crate) rfl (by decide)
  refine ⟨record, h, hentries, (hentries _).2 ⟨_, hint_tool⟩, (hentries _).2 ⟨_, pointer_outer⟩,
    hvoid _ hnote, ?_⟩
  rw [hid]
  rfl

end Crates

end FlatGraph
