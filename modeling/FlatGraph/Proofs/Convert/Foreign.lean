import FlatGraph.Proofs.Convert.Depth

/-!
# What a read does not depend on

A record may hold more than the type that is read from it has a place for. What concerns the read
of a root is its type hint, and the entries whose keys have the name of a property of the type as
their first segment (`Read.concerns`).

**Theorem (`Registry.read_of_concerned`).** Two records that agree on the entries that concern a
read are read alike: with the same object or the same error, and with the same references resolved.
To a property, only the keys count that have its name as their first segment: `addressbook.city` is
no part of `address`.

A property looks at the entries of its region only, in the order of the record. Whatever it looks
up, lists or extracts there is the same in both records (`Agree`). That includes the records that
objects inside are read from, so that there is no need to go down into these.

How deep a read goes at most depends on the longest key, however, and that may differ. Both records
are therefore read over one reader of the objects inside, which goes as deep as both keys are long
together (`Registry.read_of_agree`).
-/

namespace FlatGraph

open FlatGraph.Path (Below Within)

/-! ## First segments -/

namespace Path

/-- A key up to its first dot. -/
def firstSegment (key : String) : String := .ofList (key.toList.takeWhile (· != '.'))

/-- The keys in the region of a name are those with the name as their first segment. -/
theorem firstSegment_eq_iff {name key : String} (h : '.' ∉ name.toList) :
    firstSegment key = name ↔ Within name key := by
  rw [firstSegment, Text.ofList_eq_iff]
  constructor
  · intro hname
    cases hd : key.toList.dropWhile (· != '.') with
    | nil =>
      refine .inl (String.toList_inj.1 ?_)
      rw [← List.takeWhile_append_dropWhile (p := (· != '.')) (l := key.toList), hd, hname,
        List.append_nil]
    | cons c rest =>
      have hkey := (Text.eq_append_cons_of_dropWhile hd).1
      rw [hname] at hkey
      refine .inr ⟨.ofList rest, String.toList_inj.1 ?_⟩
      rw [hkey]
      simp
  · rintro (rfl | ⟨rest, rfl⟩)
    · exact List.takeWhile_eq_self_iff.2 fun c hc => bne_iff_ne.2 fun he => h (he ▸ hc)
    · have hkey : (name ++ "." ++ rest).toList = name.toList ++ '.' :: rest.toList := by simp
      rw [hkey, Text.takeWhile_append_cons h]

end Path

/-! ## Records that agree in a region -/

/-- The records hold the same entries in the region, in the same order. -/
def Agree (region : String → Bool) (as bs : Entries) : Prop :=
  as.toList.filter (region ·.1) = bs.toList.filter (region ·.1)

namespace Agree

variable {region inside : String → Bool} {as bs : Entries} {path key : String}

theorem get? (h : Agree region as bs) (hk : region key = true) : as.get? key = bs.get? key := by
  have hlookup := congrArg (List.lookup key) h
  rwa [Lists.lookup_filter, Lists.lookup_filter, if_pos hk, if_pos hk] at hlookup

theorem symm (h : Agree region as bs) : Agree region bs as := Eq.symm h

/-- A region inside another. -/
theorem sub (h : Agree region as bs) (hi : ∀ k, inside k = true → region k = true) :
    Agree inside as bs := (Holds.sub h hi).trans (Holds.sub rfl hi).symm

theorem put {value : Bytes} (hk : region key = false) : Agree region (as.put key value) as := by
  by_cases he : key = "" ∨ value = []
  · rw [Entries.put_of_empty he]
    rfl
  · rw [Agree, Entries.toList_put (not_or.1 he).1 (not_or.1 he).2, Holds.filter_write hk]

theorem elementPaths (h : Agree region as bs) (hb : ∀ k, Below path k → region k = true) :
    as.elementPaths (Path.elementStart path) = bs.elementPaths (Path.elementStart path) := by
  have houtside : ∀ e : String × Bytes, region e.1 = false →
      Path.elementPath? e.1 (Path.elementStart path) = none := fun e he => by
    rw [Option.eq_none_iff_forall_ne_some]
    intro q hq
    obtain ⟨text, rest, -, -, hkey⟩ := Path.elementPath?_eq_some_iff.1 hq
    have hbelow : Below path e.1 := Path.below_of_beginsWith_elementStart
      (hkey ▸ Text.beginsWith_trans (Path.beginsWith_element _ _) (Text.beginsWith_append _ _))
    exact Bool.false_ne_true (he.symm.trans (hb _ hbelow))
  rw [Entries.elementPaths, Entries.elementPaths,
    ← Lists.filterMap_filter_of_none fun e _ => houtside e, h,
    Lists.filterMap_filter_of_none fun e _ => houtside e]

theorem extract (h : Agree region as bs) (hb : ∀ k, Below path k → region k = true)
    (hp : path ≠ "") : as.extract path = bs.extract path := by
  have hsub : as.filter (Text.beginsWith (Path.subtreeStart path)) =
      bs.filter (Text.beginsWith (Path.subtreeStart path)) :=
    Entries.ext_toList (h.sub fun k hk => hb k (Path.beginsWith_subtreeStart_iff.1 hk))
  unfold Entries.extract
  rw [hsub, h.get? (hb _ (Path.below_hintOf hp))]

end Agree

namespace Read

variable {r : Registry} {resolve : Resolver} {nested : Nested} {path declared : String}
  {as bs : Entries} {p : Property} {reference : Bool}

/-! ## Properties -/

theorem valueAt_of_agree {type : TypeRef} (h : Agree (inRegion path) as bs) (hp : path ≠ "")
    {key : String} (hk : Within path key) :
    valueAt resolve nested type reference as key =
      valueAt resolve nested type reference bs key := by
  rcases isLeaf_or_nested type reference with hl | ⟨name, rfl, rfl⟩
  · rw [valueAt_of_isLeaf hl, valueAt_of_isLeaf hl, h.get? (inRegion_iff.2 hk)]
  · have hinside : ∀ k, Below key k → inRegion path k = true := fun k hb =>
      inRegion_iff.2 (hk.trans hb.within)
    show inner nested key name as = inner nested key name bs
    rw [inner, inner, h.extract hinside (Path.ne_empty_of_within hp hk)]

theorem elementKeys_of_agree {type : TypeRef} (h : Agree (inRegion path) as bs) :
    elementKeys type reference as path = elementKeys type reference bs path := by
  have hinside : ∀ k, Below path k → inRegion path k = true := fun k hb =>
    inRegion_iff.2 hb.within
  rcases isLeaf_or_nested type reference with hl | ⟨name, rfl, rfl⟩
  · rw [elementKeys_of_isLeaf hl, elementKeys_of_isLeaf hl]
    exact congrArg _ (h.sub fun k hk => hinside k (Path.below_of_beginsWith_elementStart hk))
  · exact h.elementPaths hinside

/-- **A property depends on the entries of its region.** -/
theorem property_of_agree (h : Agree (inRegion path) as bs) (hp : path ≠ "") :
    property resolve nested path p as = property resolve nested path p bs := by
  have hvalue : ∀ type, ∀ key ∈ elementKeys type p.isReference bs path,
      valueAt resolve nested type p.isReference as key =
        valueAt resolve nested type p.isReference bs key := fun type key hk =>
    valueAt_of_agree h hp (below_of_mem_elementKeys hk).within
  match hs : p.shape with
  | .single type =>
    rw [property_single hs, property_single hs, valueAt_of_agree h hp (.self path)]
  | .list type =>
    unfold property
    rw [hs]
    simp only [elements_eq, elementKeys_of_agree h]
    rw [Traced.mapM_congr fun key hk => by rw [hvalue type key hk]]
  | .map key type =>
    unfold property
    rw [hs]
    simp only [mapEntries_eq, elementKeys_of_agree h]
    rw [Traced.mapM_congr fun key hk => by rw [hvalue type key hk]]

/-! ## Roots -/

/-- Whether a key concerns the read of a root: it is the type hint, or the first segment is the
name of a property of the type that is read. -/
def concerns (r : Registry) (declared : String) (es : Entries) (key : String) : Bool :=
  key == Path.hint ||
    match resolveType r "" declared es with
    | .ok t => t.properties.any (·.name == Path.firstSegment key)
    | .error _ => false

theorem concerns_hint (r : Registry) (declared : String) (es : Entries) :
    concerns r declared es Path.hint = true := by
  simp [concerns]

theorem concerns_of_property {t : EntityType} {key : String}
    (ht : resolveType r "" declared as = .ok t) (hp : p ∈ t.properties)
    (hn : '.' ∉ p.name.toList) (hk : Within p.name key) : concerns r declared as key = true := by
  rw [concerns, ht, Bool.or_eq_true, List.any_eq_true]
  exact .inr ⟨p, hp, beq_iff_eq.2 ((Path.firstSegment_eq_iff hn).2 hk).symm⟩

theorem concerns_congr (h : as.get? Path.hint = bs.get? Path.hint) (r : Registry)
    (declared : String) : concerns r declared as = concerns r declared bs := by
  funext key
  rw [concerns, concerns, resolveType_congr h]

/-- **The root is read from the entries that concern it**, whatever reads the objects inside. -/
theorem level_of_agree (hr : r.Named) (h : Agree (concerns r declared as) as bs) :
    level r resolve nested "" declared as = level r resolve nested "" declared bs := by
  have hhint := h.get? (concerns_hint r declared as)
  unfold level
  rw [← resolveType_congr hhint]
  refine Traced.bind_congr fun t ht => congrArg (· >>= _) (Traced.mapM_congr fun p hp => ?_)
  have hmem : p ∈ t.properties := (List.filter_append_perm _ _).mem_iff.1 hp
  obtain ⟨type, hfind⟩ := find?_of_resolveType ht
  have hname := hr.isName type t hfind p hmem
  have hregion : Agree (inRegion p.name) as bs := h.sub fun k hk =>
    concerns_of_property ht hmem hname.no_dot (inRegion_iff.1 hk)
  rw [Path.join_empty, property_of_agree hregion hname.ne_empty]

end Read

namespace Registry

open Read (concerns)

variable {r : Registry} {resolve : Resolver} {type : String} {as bs : Entries}

theorem read_of_agree (hr : r.Named) (ha : as.size ≠ 0) (hb : bs.size ≠ 0)
    (h : Agree (concerns r type as) as bs) : r.read resolve type as = r.read resolve type bs := by
  obtain ⟨m, hm⟩ := Nat.exists_eq_succ_of_ne_zero (Entries.longestKey_pos ha).ne'
  obtain ⟨n, hn⟩ := Nat.exists_eq_succ_of_ne_zero (Entries.longestKey_pos hb).ne'
  let beyond : Read.Nested := fun path declared _ => Traced.fail (.endless declared path)
  have hnames := fun name t ht p hp => (hr.isName name t ht p hp).ne_empty
  calc r.read resolve type as
    _ = some <$> Read.levels r resolve (Read.levels r resolve beyond n) (m + 1) "" type as := by
      rw [read_eq_of_names hnames, if_neg ha, hm]
    _ = some <$> Read.level r resolve (Read.levels r resolve beyond (m + n)) "" type as := by
      rw [Read.levels_succ, ← Read.levels_add]
    _ = some <$> Read.level r resolve (Read.levels r resolve beyond (n + m)) "" type bs := by
      rw [Read.level_of_agree hr h, Nat.add_comm]
    _ = some <$> Read.levels r resolve (Read.levels r resolve beyond m) (n + 1) "" type bs := by
      rw [Read.levels_succ, ← Read.levels_add]
    _ = r.read resolve type bs := by
      rw [read_eq_of_names hnames, if_neg hb, hn]

/-- **Entries that do not concern a read do not matter to it.** -/
theorem read_of_concerned (hr : r.Named) (ha : as.size ≠ 0) (hb : bs.size ≠ 0)
    (h : as.toList.filter (concerns r type as ·.1) = bs.toList.filter (concerns r type bs ·.1)) :
    r.read resolve type as = r.read resolve type bs ∧
    (∀ key value, concerns r type as key = false →
      r.read resolve type (as.put key value) = r.read resolve type as) ∧
    ∀ (nested : Read.Nested) (p : Property) (key : String) (value : Bytes), Path.IsName p.name →
      Path.firstSegment key ≠ p.name →
      Read.property resolve nested p.name p (as.put key value) =
        Read.property resolve nested p.name p as := by
  refine ⟨?_, fun key value hk => ?_, fun nested p key value hp hk => ?_⟩
  · have hhint : as.get? Path.hint = bs.get? Path.hint := by
      have hlookup := congrArg (List.lookup Path.hint) h
      rwa [Lists.lookup_filter, Lists.lookup_filter, if_pos (Read.concerns_hint r type as),
        if_pos (Read.concerns_hint r type bs)] at hlookup
    rw [← Read.concerns_congr hhint] at h
    exact read_of_agree hr ha hb h
  · refine (read_of_agree hr ha ?_ (Agree.put hk).symm).symm
    rw [Ne, Entries.size_eq_zero_iff, not_forall] at ha ⊢
    obtain ⟨k, hk⟩ := ha
    refine ⟨k, ?_⟩
    rw [Entries.get?_put]
    split
    · exact Option.some_ne_none _
    · exact hk
  · refine Read.property_of_agree (.put ?_) hp.ne_empty
    rw [← Bool.not_eq_true, inRegion_iff, ← Path.firstSegment_eq_iff hp.no_dot]
    exact hk

end Registry

/-! ## Notes in an address book -/

namespace AddressBook

/-- A property that holds one text. -/
def text (name : String) : Property := { name, shape := .single (.scalar .text) }

/-- An address. -/
def address : EntityType := { name := "Address", properties := [text "city"] }

/-- A person with an address. -/
def person : EntityType where
  name := "Person"
  properties := [text "firstname", { name := "address", shape := .single (.entity "Address") }]

/-- The registry of persons and addresses. -/
def people : Registry := ⟨[("Address", address), ("Person", person)]⟩

theorem named_people : people.Named := .of_types (by decide)

/-- A person. -/
def plain : Entries := Entries.empty.putAll
  [("firstname", Utf8.encode "rand"), ("address.city", Utf8.encode "two rivers")]

/-- The same person with notes, some of which look like an address. -/
def noted : Entries := Entries.empty.putAll
  [("addressbook.city", Utf8.encode "caemlyn"), ("firstname", Utf8.encode "rand"),
    ("first", Utf8.encode "?"), ("address.city", Utf8.encode "two rivers"),
    ("addressbook", Utf8.encode "?"), (".address.city", Utf8.encode "tear")]

/-- The notes are not read, and one more does not matter either. -/
theorem read_noted : people.Named ∧ plain.size ≠ 0 ∧ noted.size ≠ 0 ∧
    people.read .nothing "Person" noted = people.read .nothing "Person" plain ∧
    people.read .nothing "Person" (noted.put "addressbook.x" (Utf8.encode "1")) =
      people.read .nothing "Person" noted := by
  have hplain : plain.size ≠ 0 := by decide +kernel
  have hnoted : noted.size ≠ 0 := by decide +kernel
  obtain ⟨hsame, hput, -⟩ := @Registry.read_of_concerned people .nothing "Person" noted plain
    named_people hnoted hplain (by decide +kernel)
  exact ⟨named_people, hplain, hnoted, hsame, hput "addressbook.x" _ (by decide +kernel)⟩

end AddressBook

end FlatGraph
