import FlatGraph.Proofs.Convert.Normal
import FlatGraph.Proofs.Convert.Order
import FlatGraph.Proofs.Convert.Renewal

/-!
# Writing what was read

**An object that was read is written as the record it was read from exactly if the record is in
normal form** (`rewrite_iff_normal`).
-/

namespace FlatGraph

open FlatGraph.Path (Below Within)
open Write (Leaves LeavesAt)

namespace Rewrite

variable {r : Registry} {resolve : Resolver} {es bs : Entries} {nested : Read.Nested}
  {type : TypeRef} {reference root : Bool} {path : String} {p : Property} {v? : Option Value}

/-- What is read for a value tells whether the record is normal there: if it is, there is a value,
and a value that there is renews its region exactly then. -/
structure Tells (es : Entries) (region : String → Bool)
    (leaves : Value → List (String × Bytes) → Prop) (normal : Prop) (v? : Option Value) : Prop where
  found : normal → v? ≠ none
  renews : ∀ v, v? = some v → (Renews (leaves v) es region ↔ normal)

/-- What is read for a value of a declared type tells whether it is normal. -/
def ElementTells (r : Registry) (resolve : Resolver) (es : Entries) (type : TypeRef)
    (reference : Bool) (path : String) (v? : Option Value) : Prop :=
  Tells es (covers type reference path) (fun v => Leaves (Write.element r path type reference v))
    (NormalValue r resolve es type reference path) v?

/-- What is read for a property tells whether it is there and normal. -/
def PropertyTells (r : Registry) (resolve : Resolver) (es : Entries) (root : Bool) (path : String)
    (p : Property) (v? : Option Value) : Prop :=
  Tells es (inRegion path) (fun v => Leaves (Write.property r root path p v))
    (es.Occupied path ∧ NormalProperty r resolve es p path) v?

/-! ## Leaves -/

theorem leaves_leaf {v : Value} {xs : List (String × Bytes)}
    (hl : Read.isLeaf type reference = true) (hv : v.isNull = false)
    (h : Leaves (Write.element r path type reference v) xs) : ∃ raw, xs = [(path, raw)] := by
  match type, reference with
  | .scalar type, reference =>
    obtain ⟨raw, -, rfl⟩ := (Write.leaves_element_scalar_iff hv).1 h
    exact ⟨raw, rfl⟩
  | .entity declared, true =>
    obtain ⟨_, _, s, -, -, rfl⟩ := (Write.leaves_reference_iff hv).1 h
    exact ⟨_, rfl⟩
  | .entity declared, false => cases hl

/-- One pair agrees with a region that holds an entry at its key if it is this entry, and the only
one in the region. -/
theorem agrees_singleton_iff {raw raw' : Bytes} {region : String → Bool}
    (hr : es.get? path = some raw) (hp : region path = true) :
    Agrees [(path, raw')] es region ↔
      raw' = raw ∧ ∀ k, region k = true → es.get? k ≠ none → k = path := by
  obtain ⟨hpath, hraw⟩ := Entries.ne_empty_of_get? hr
  constructor
  · intro h
    have hself := h path hp
    rw [Entries.lastOf_singleton, hr] at hself
    split_ifs at hself with hif
    refine ⟨Option.some.inj hself, fun k hk hne => ?_⟩
    by_contra hkp
    rw [← h k hk, Entries.lastOf_singleton, if_neg fun hif => hkp hif.1] at hne
    exact hne rfl
  · rintro ⟨rfl, hk⟩ k hkr
    rw [Entries.lastOf_singleton]
    split_ifs with hif
    · rw [hif.1, hr]
    · by_contra hne
      have hkp := hk k hkr (Ne.symm hne)
      exact hif ⟨hkp, hpath, hraw⟩

theorem leaf_tells (hl : Read.isLeaf type reference = true) (hag : bs.get? path = es.get? path)
    (h : (Read.valueAt resolve nested type reference bs path).outcome = .ok v?) :
    ElementTells r resolve es type reference path v? := by
  rw [Read.valueAt_of_isLeaf hl, hag] at h
  cases hg : es.get? path with
  | none =>
    rw [hg] at h
    cases h
    refine ⟨fun hn => ?_, fun v hv => by cases hv⟩
    obtain ⟨raw, hr, -⟩ := (normalValue_leaf_iff hl).1 hn
    cases hg.symm.trans hr
  | some raw =>
    rw [hg] at h
    refine ⟨fun hn => ?_, fun v hv => ?_⟩
    · obtain ⟨raw', hr, v, hv, -⟩ := (normalValue_leaf_iff hl).1 hn
      cases hg.symm.trans hr
      cases h.symm.trans hv
      simp
    · subst hv
      have hself : covers type reference path path = true := (covers_leaf_iff hl).2 rfl
      rw [normalValue_leaf_iff hl]
      constructor
      · rintro ⟨xs, hx, hagrees⟩
        obtain ⟨raw', rfl⟩ := leaves_leaf hl (Read.isNull_of_leaf h) hx
        obtain ⟨rfl, -⟩ := (agrees_singleton_iff hg hself).1 hagrees
        exact ⟨_, hg, v, h, hx⟩
      · rintro ⟨raw', hr, v', hv', hx⟩
        cases hg.symm.trans hr
        cases h.symm.trans hv'
        refine ⟨_, hx, (agrees_singleton_iff hg hself).2 ⟨rfl, fun k hk _ => ?_⟩⟩
        exact (covers_leaf_iff hl).1 hk

/-! ## Single values -/

/-- A larger region is renewed by what is left for a smaller one if there is nothing between. -/
theorem renews_outer_iff {leaves : List (String × Bytes) → Prop} {region outer : String → Bool}
    (hin : ∀ xs, leaves xs → ∀ x ∈ xs, region x.1 = true)
    (ho : ∀ k, region k = true → outer k = true) :
    Renews leaves es outer ↔
      (∀ k, outer k = true → es.get? k ≠ none → region k = true) ∧ Renews leaves es region := by
  have hone : Apart (fun _ : Unit => region) [()] := List.pairwise_singleton _ _
  have h : Renews (fun xs => ∃ parts, List.Forall₂ (fun _ : Unit => leaves) [()] parts ∧
      xs = parts.flatten) es outer ↔ _ :=
    renews_flatten_iff hone (fun _ _ => hin) (fun _ _ => ho)
  have hcongr : ∀ xs, (∃ parts, List.Forall₂ (fun _ => leaves) [()] parts ∧
      xs = parts.flatten) ↔ leaves xs := by
    intro xs
    simp only [List.forall₂_cons_left_iff, List.forall₂_nil_left_iff]
    constructor
    · rintro ⟨_, ⟨ys, _, hy, rfl, rfl⟩, rfl⟩
      simpa using hy
    · exact fun hx => ⟨[xs], ⟨xs, [], hx, rfl, rfl⟩, by simp⟩
  rw [Renews.congr hcongr] at h
  simpa using h

theorem covers_of_leaves {v : Value} {xs : List (String × Bytes)} (hp : path ≠ "")
    (h : Leaves (Write.element r path type reference v) xs) :
    ∀ x ∈ xs, covers type reference path x.1 = true := by
  intro x hx
  cases hl : Read.isLeaf type reference with
  | false =>
    exact (covers_nested_iff hl).2
      (Write.region_of_leaves_element r path type reference v xs hp h x hx)
  | true =>
    by_cases hv : v.isNull = true
    · rw [Value.eq_null_of_isNull hv] at h
      rw [Write.leaves_element_null_iff.1 h] at hx
      cases hx
    · obtain ⟨raw, rfl⟩ := leaves_leaf hl (by simpa using hv) h
      rw [List.mem_singleton.1 hx]
      exact (covers_leaf_iff hl).2 rfl

/-- Where a value is read for a property, there is something in its region. -/
theorem occupied_of_property {v : Value} (hp : path ≠ "")
    (hag : ∀ k, Within path k → bs.get? k = es.get? k)
    (h : (Read.property resolve nested path p bs).outcome = .ok (some v)) : es.Occupied path := by
  by_contra hno
  have hnone : (Read.property resolve nested path p bs).outcome = .ok none :=
    Read.property_of_empty hp fun k hk => by
      rw [hag k hk]
      by_contra hne
      exact hno ⟨k, hk, hne⟩
  cases h.symm.trans hnone

theorem single_tells (hp : path ≠ "") (hid : p.isId = false) (hs : p.shape = .single type)
    (hag : ∀ k, Within path k → bs.get? k = es.get? k)
    (he : ∀ w?, (Read.valueAt resolve nested type p.isReference bs path).outcome = .ok w? →
      ElementTells r resolve es type p.isReference path w?)
    (h : (Read.property resolve nested path p bs).outcome = .ok v?) :
    PropertyTells r resolve es root path p v? := by
  have hvalue := h
  rw [Read.property_single hs] at hvalue
  obtain ⟨hfound, hrenews⟩ := he v? hvalue
  refine ⟨fun hn => hfound ((normalProperty_single_iff hid hs).1 hn.2).2, fun v hv => ?_⟩
  subst hv
  rw [and_iff_right (occupied_of_property hp hag h), normalProperty_single_iff hid hs,
    ← hrenews v rfl, Renews.congr fun xs => Write.leaves_property_single_iff hid hs]
  rw [renews_outer_iff (fun xs => covers_of_leaves hp) fun k hk => inRegion_iff.2
    (within_of_covers hk)]
  simp only [inRegion_iff]

theorem id_tells {key : ScalarType} (hp : path ≠ "") (hid : p.isId = true)
    (hs : p.shape = .single (.scalar key)) (hag : ∀ k, Within path k → bs.get? k = es.get? k)
    (h : (Read.property resolve nested path p bs).outcome = .ok v?) :
    PropertyTells r resolve es root path p v? := by
  have hvalue := h
  rw [Read.property_single hs, Read.valueAt_scalar_eq_ok_iff, hag path (.self path)] at hvalue
  cases hg : es.get? path with
  | none =>
    rw [hg] at hvalue
    cases (show v? = none from hvalue)
    refine ⟨fun hn => ?_, fun v hv => by cases hv⟩
    obtain ⟨raw, hr, -⟩ := (normalProperty_id_iff hid hs).1 hn.2
    cases hg.symm.trans hr
  | some raw =>
    rw [hg] at hvalue
    replace hvalue : key.decode raw = .ok v? := hvalue
    refine ⟨fun hn => ?_, fun v hv => ?_⟩
    · obtain ⟨raw', hr, ⟨v, text, hd, -⟩, -⟩ := (normalProperty_id_iff hid hs).1 hn.2
      cases hg.symm.trans hr
      cases hvalue.symm.trans hd
      simp
    · subst hv
      rw [and_iff_right (occupied_of_property hp hag h), normalProperty_id_iff hid hs,
        Renews.congr fun xs => Write.leaves_property_of_isId hid]
      constructor
      · rintro ⟨_, ⟨text, ht, rfl⟩, hagrees⟩
        obtain ⟨hraw, hk⟩ := (agrees_singleton_iff hg (inRegion_iff.2 (.self path))).1 hagrees
        refine ⟨raw, hg, ⟨v, text, hvalue, (Write.idText_eq_ok_iff.1 ht).2, hraw⟩, fun k hw => ?_⟩
        exact hk k (inRegion_iff.2 hw)
      · rintro ⟨raw', hr, ⟨v', text, hd, ht, hraw⟩, hk⟩
        cases hg.symm.trans hr
        cases hvalue.symm.trans hd
        refine ⟨_, ⟨text, Write.idText_eq_ok_iff.2 ⟨ScalarType.isScalar_of_decode hd, ht⟩, rfl⟩,
          (agrees_singleton_iff hg (inRegion_iff.2 (.self path))).2 ⟨hraw, fun k hw => ?_⟩⟩
        exact hk k (inRegion_iff.1 hw)

/-! ## Elements -/

/-- What elements leave, each at its key text. -/
def ElementsLeave (r : Registry) (path : String) (type : TypeRef) (reference : Bool)
    (as : List (String × Value)) (xs : List (String × Bytes)) : Prop :=
  ∃ parts, List.Forall₂ (fun a ys =>
      Leaves (Write.element r (Path.element path a.1) type reference a.2) ys) as parts ∧
    xs = parts.flatten

variable {as : List (String × Value)}

/-- Elements that renew their region account for all keys in it. -/
theorem covered_of_renews
    (h : Renews (ElementsLeave r path type reference as) es (inRegion path)) :
    Covered es type reference path (as.map Prod.fst) := by
  obtain ⟨_, ⟨parts, hl, rfl⟩, hagrees⟩ := h
  intro k hk hne
  rw [← hagrees k (inRegion_iff.2 hk)] at hne
  obtain ⟨v, hv⟩ := Option.ne_none_iff_exists'.1 hne
  have hin : List.Forall₂ (fun (a : String × Value) ys => ∀ x ∈ ys,
      covers type reference (Path.element path a.1) x.1 = true) as parts :=
    hl.imp fun a ys hy => covers_of_leaves (Path.element_ne_empty _ _) hy
  obtain ⟨a, ha, hc⟩ := exists_region_of_mem hin (Entries.mem_of_lastOf hv)
  exact ⟨a.1, List.mem_map_of_mem ha, hc⟩

/-- Elements that are read at their own key texts renew their region if all of them are normal, and
there is nothing else. -/
theorem renews_elements_iff (ht : Telling type reference (as.map Prod.fst))
    (hread : ∀ a ∈ as, (Read.valueAt resolve nested type reference bs
      (Path.element path a.1)).outcome = .ok (some a.2))
    (he : ∀ text w?, (Read.valueAt resolve nested type reference bs
        (Path.element path text)).outcome = .ok w? →
      ElementTells r resolve es type reference (Path.element path text) w?) :
    Renews (ElementsLeave r path type reference as) es (inRegion path) ↔
      Covered es type reference path (as.map Prod.fst) ∧
        ∀ text ∈ as.map Prod.fst,
          NormalValue r resolve es type reference (Path.element path text) := by
  have hd : Apart (fun a : String × Value => covers type reference (Path.element path a.1)) as :=
    List.pairwise_map.1 (apart_elements ht)
  have hin : ∀ a ∈ as, ∀ ys,
      Leaves (Write.element r (Path.element path a.1) type reference a.2) ys →
      ∀ x ∈ ys, covers type reference (Path.element path a.1) x.1 = true :=
    fun a _ ys => covers_of_leaves (Path.element_ne_empty _ _)
  have ho : ∀ a ∈ as, ∀ k, covers type reference (Path.element path a.1) k = true →
      inRegion path k = true := fun a _ k hk => inRegion_iff.2
    (.inr ((Path.below_element _ _).trans_within (within_of_covers hk)))
  refine (renews_flatten_iff hd hin ho).trans (and_congr ?_ ?_)
  · simp [Covered, inRegion_iff]
  · rw [List.forall_mem_map]
    exact forall₂_congr fun a ha => (he a.1 _ (hread a ha)).renews a.2 rfl

/-! ### Lists -/

/-- A list whose elements have the first `n` indexes is read in the order of the indexes. -/
theorem listAt_of_perm {n : Nat} (hs : p.shape = .list type) (hn : n ≤ Number.greatestWord)
    (hkeys : (Read.elementKeys type p.isReference bs path).Perm
      ((indexTexts n).map (Path.element path)))
    (h : (Read.property resolve nested path p bs).outcome = .ok v?) :
    Read.ListAt resolve nested type p.isReference bs
      ((indexTexts n).map (Path.element path)) v? := by
  have hplaces : ((indexTexts n).map (Path.element path)).map
      (Read.place · (Path.elementStart path)) = List.range n := map_place_indexTexts hn
  have hperm := (hkeys.map (Read.place · (Path.elementStart path)))
  rw [hplaces] at hperm
  have hnumbered : Numbered type p.isReference path bs := by
    refine ⟨fun k hk => ?_, hperm.nodup_iff.2 List.nodup_range⟩
    exact lt_of_lt_of_le (List.mem_range.1 (hperm.mem_iff.1 (List.mem_map_of_mem hk))) hn
  obtain ⟨keys, hkeys', hsorted, hlist⟩ := Read.list_ascending hs hnumbered h
  have hsorted' : (((indexTexts n).map (Path.element path)).map
      (Read.place · (Path.elementStart path))).Pairwise (· < ·) := by
    rw [hplaces]
    exact List.pairwise_lt_range
  have : keys = (indexTexts n).map (Path.element path) :=
    (hkeys'.trans hkeys).eq_of_pairwise (fun a b _ _ hab hba => absurd hab (lt_asymm hba))
      (List.pairwise_map.1 hsorted) (List.pairwise_map.1 hsorted')
  rwa [← this]

/-- If there are as many items as keys, an item is read at each key. -/
theorem forall₂_of_listAt {keys : List String} {items : List Value}
    (h : Read.ListAt resolve nested type reference bs keys (some (.list items)))
    (hlen : keys.length ≤ items.length) :
    List.Forall₂ (fun k w => (Read.valueAt resolve nested type reference bs k).outcome =
      .ok (some w)) keys items := by
  obtain ⟨ws, hws, hitems⟩ := h
  split_ifs at hitems
  cases hitems
  rw [hws.length_eq] at hlen
  rw [Lists.eq_map_some_of_length_le hlen, List.forall₂_map_right_iff] at hws
  exact hws

/-- The items of a list with their key texts. -/
def indexed (items : List Value) : List (String × Value) :=
  items.zipIdx.map fun v => (indexText v.2, v.1)

theorem map_fst_indexed (items : List Value) :
    (indexed items).map Prod.fst = indexTexts items.length := by
  rw [indexed, List.map_map, indexTexts, List.range_eq_range', ← List.zipIdx_map_snd 0 items,
    List.map_map]
  rfl

theorem map_snd_indexed (items : List Value) : (indexed items).map Prod.snd = items := by
  rw [indexed, List.map_map]
  exact List.zipIdx_map_fst 0 items

theorem leaves_list_iff {items : List Value} {xs : List (String × Bytes)} (hid : p.isId = false)
    (hs : p.shape = .list type) :
    Leaves (Write.property r root path p (.list items)) xs ↔
      ElementsLeave r path type p.isReference (indexed items) xs := by
  rw [Write.leaves_property_list_iff hid hs, ElementsLeave, indexed]
  simp only [List.forall₂_map_left_iff]
  constructor
  · rintro ⟨_, ⟨⟩, h⟩
    exact Write.leaves_elements_iff.1 h
  · exact fun h => ⟨items, rfl, Write.leaves_elements_iff.2 h⟩

/-- Where the elements of the first `n` indexes are read, they are the items. -/
theorem forall_mem_indexed {R : String → Value → Prop} {items : List Value}
    (h : List.Forall₂ R (indexTexts items.length) items) :
    ∀ a ∈ indexed items, R a.1 a.2 := by
  rw [← map_fst_indexed] at h
  nth_rewrite 2 [← map_snd_indexed items] at h
  rwa [List.forall₂_map_left_iff, List.forall₂_map_right_iff, List.forall₂_same] at h

section ListProperty

variable (hp : path ≠ "") (hid : p.isId = false) (hs : p.shape = .list type)
  (hsize : es.size ≤ Number.greatestWord) (hag : ∀ k, Within path k → bs.get? k = es.get? k)
  (he : ∀ text w?, (Read.valueAt resolve nested type p.isReference bs
      (Path.element path text)).outcome = .ok w? →
    ElementTells r resolve es type p.isReference (Path.element path text) w?)
  (h : (Read.property resolve nested path p bs).outcome = .ok v?)

include hs hsize hag h

theorem listAt_of_agree {n : Nat} (hkeys : (Read.elementKeys type p.isReference bs path).Perm
    ((indexTexts n).map (Path.element path))) :
    Read.ListAt resolve nested type p.isReference bs
      ((indexTexts n).map (Path.element path)) v? := by
  have hn : n ≤ es.size := by
    have hlen := hkeys.length_eq
    rw [(Read.elementKeys_perm_of_agree fun k hk => hag k hk.within).length_eq, List.length_map,
      length_indexTexts] at hlen
    rw [← hlen]
    exact Read.length_elementKeys_le type
  exact listAt_of_perm hs (hn.trans hsize) hkeys h

include he

/-- A list in normal form is read item by item. -/
theorem items_of_normal {n : Nat} (hk : Covered es type p.isReference path (indexTexts n))
    (hn : ∀ text ∈ indexTexts n,
      NormalValue r resolve es type p.isReference (Path.element path text)) :
    ∃ items, v? = (if items.isEmpty then none else some (.list items)) ∧
      List.Forall₂ (fun text w => (Read.valueAt resolve nested type p.isReference bs
        (Path.element path text)).outcome = .ok (some w)) (indexTexts n) items := by
  have hkeys := elementKeys_perm_of_telling (fun k hk => hag k hk.within) hk
    (telling_indexTexts_range n) fun text ht => (hn text ht).exists_covered
  obtain ⟨ws, hws, rfl⟩ := listAt_of_agree hs hsize hag h hkeys
  rw [List.forall₂_map_left_iff] at hws
  have hlen : (ws.filterMap id).length = ws.length := by
    rw [List.filterMap_length_eq_length]
    intro w hw
    obtain ⟨text, ht, hread⟩ := Lists.exists_left_of_mem hws hw
    exact Option.isSome_iff_ne_none.2 ((he text w hread).found (hn text ht))
  refine ⟨ws.filterMap id, rfl, ?_⟩
  rwa [Lists.eq_map_some_of_length_le hlen.ge, List.forall₂_map_right_iff] at hws

include hp hid

/-- What is read for a list tells whether it is normal. -/
theorem list_tells : PropertyTells r resolve es root path p v? := by
  constructor
  · rintro ⟨⟨k, hw, hne⟩, hn⟩
    obtain ⟨n, hk, hn⟩ := (normalProperty_list_iff hid hs).1 hn
    obtain ⟨items, rfl, hitems⟩ := items_of_normal hs hsize hag he h hk hn
    obtain ⟨text, ht, -⟩ := hk k hw hne
    obtain ⟨w, hm, -⟩ := Lists.exists_right_of_mem hitems ht
    rw [if_neg fun h0 => List.ne_nil_of_mem hm (List.isEmpty_iff.1 h0)]
    exact Option.some_ne_none _
  · rintro v rfl
    rw [and_iff_right (occupied_of_property hp hag h), normalProperty_list_iff hid hs]
    obtain ⟨found, hf, hv⟩ := (Read.property_list_eq_ok_iff hs).1 h
    unfold Read.listOf at hv
    split_ifs at hv
    cases hv
    have hlen : (Read.inOrder (found.filterMap id)).length ≤
        (Read.elementKeys type p.isReference bs path).length := by
      rw [Read.inOrder, List.length_map, List.length_mergeSort, hf.length_eq]
      exact List.length_filterMap_le _ _
    generalize Read.inOrder (found.filterMap id) = items at h hlen
    rw [Renews.congr fun xs => leaves_list_iff hid hs]
    constructor
    · intro hrenews
      have hk := covered_of_renews hrenews
      rw [map_fst_indexed] at hk
      have hkeys := elementKeys_perm_of_length (fun k hk => hag k hk.within) hk
        (telling_indexTexts_range _).no_bracket (by rwa [length_indexTexts])
      have hread := forall₂_of_listAt (listAt_of_agree hs hsize hag h hkeys) (by simp)
      rw [List.forall₂_map_left_iff] at hread
      have := (renews_elements_iff (map_fst_indexed items ▸ telling_indexTexts_range _)
        (forall_mem_indexed hread) he).1 hrenews
      rw [map_fst_indexed] at this
      exact ⟨_, this⟩
    · rintro ⟨n, hk, hn⟩
      obtain ⟨items', hv, hread⟩ := items_of_normal hs hsize hag he h hk hn
      split_ifs at hv
      cases hv
      have hlength := hread.length_eq
      rw [length_indexTexts] at hlength
      subst hlength
      refine (renews_elements_iff (map_fst_indexed items ▸ telling_indexTexts_range _)
        (forall_mem_indexed hread) he).2 ?_
      rw [map_fst_indexed]
      exact ⟨hk, hn⟩

end ListProperty

/-! ### Maps -/

variable {key : ScalarType} {entries : List (Value × Value)}

/-- The values of a map with the key texts that are written for their keys. -/
def keyed (key : ScalarType) (entries : List (Value × Value)) : List (String × Value) :=
  entries.map fun e => ((key.keyText e.1).toOption.getD "", e.2)

theorem leaves_map_iff {xs : List (String × Bytes)} (hid : p.isId = false)
    (hs : p.shape = .map key type) :
    Leaves (Write.property r root path p (.map entries)) xs ↔
      (∀ e ∈ entries, ∃ text, key.keyText e.1 = .ok text) ∧
        ElementsLeave r path type p.isReference (keyed key entries) xs := by
  have hparts : ∀ parts, List.Forall₂ (fun (e : Value × Value) ys => ∃ text,
        Write.encode path e.1 key = .ok text ∧ Leaves (Write.element r
          (Path.element path (Utf8.lossy text)) type p.isReference e.2) ys) entries parts ↔
      (∀ e ∈ entries, ∃ text, key.keyText e.1 = .ok text) ∧
        List.Forall₂ (fun a ys => Leaves (Write.element r (Path.element path a.1) type
          p.isReference a.2) ys) (keyed key entries) parts := by
    intro parts
    rw [keyed, List.forall₂_map_left_iff]
    have htext : ∀ {k : Value} {text : Bytes}, Write.encode path k key = .ok text →
        key.keyText k = .ok (Utf8.lossy text) := fun h =>
      Outcome.map_eq_ok_iff.2 ⟨_, Write.encode_eq_ok_iff.1 h, rfl⟩
    constructor
    · intro h
      constructor
      · intro e he
        obtain ⟨ys, -, text, ht, -⟩ := Lists.exists_right_of_mem h he
        exact ⟨_, htext ht⟩
      · refine h.imp fun e ys hy => ?_
        obtain ⟨text, ht, hy⟩ := hy
        rw [htext ht]
        exact hy
    · rintro ⟨htexts, h⟩
      refine Lists.forall₂_imp_mem h fun e he ys _ hy => ?_
      obtain ⟨text, ht⟩ := htexts e he
      obtain ⟨bs, hbs, rfl⟩ := Outcome.map_eq_ok_iff.1 ht
      rw [ht] at hy
      exact ⟨bs, Write.encode_eq_ok_iff.2 hbs, hy⟩
  rw [Write.leaves_property_map_iff hid hs]
  constructor
  · rintro ⟨_, ⟨⟩, h⟩
    obtain ⟨parts, hl, rfl⟩ := Write.leaves_mapEntries_iff.1 h
    exact ⟨((hparts parts).1 hl).1, parts, ((hparts parts).1 hl).2, rfl⟩
  · rintro ⟨ht, parts, hl, rfl⟩
    exact ⟨_, rfl, Write.leaves_mapEntries_iff.2 ⟨parts, (hparts parts).2 ⟨ht, hl⟩, rfl⟩⟩

/-- An entry that was found for a key is the one of a key text. -/
theorem exists_text_of_found {q : String} {e : Value × Value}
    (hq : q ∈ Read.elementKeys type reference bs path)
    (h : (Read.entryValue q (Read.keyText type reference (Path.elementStart path) q) key
      (Read.valueAt resolve nested type reference bs q)).outcome = .ok (some e)) :
    ∃ text, q = Path.element path text ∧
      (Read.isLeaf type reference = false → ']' ∉ text.toList) ∧
      key.decode (Utf8.encode text) = .ok (some e.1) ∧
      (Read.valueAt resolve nested type reference bs (Path.element path text)).outcome =
        .ok (some e.2) := by
  rcases Read.entryValue_eq_ok_iff.1 h with ⟨-, h⟩ | ⟨text, k, w, ht, hd, hw, hy⟩
  · cases h
  obtain ⟨v, rfl, rfl⟩ := Option.map_eq_some_iff.1 hy.symm
  rcases Read.isLeaf_or_nested type reference with hl | ⟨name, rfl, rfl⟩
  · rw [Read.keyText_of_isLeaf hl, Path.leafKey?_eq_some_iff] at ht
    subst ht
    exact ⟨text, rfl, fun hl' => absurd (hl.symm.trans hl') (by decide), hd, hw⟩
  · obtain ⟨k', -, ho⟩ := Read.mem_elementKeys_iff.1 hq
    obtain ⟨text', rest, hb, rfl, -⟩ := Path.elementPath?_eq_some_iff.1 ho
    cases ht.symm.trans (Path.elementKey?_element hb)
    exact ⟨_, rfl, fun _ => hb, hd, hw⟩

/-- If an entry is found for each key, there are key texts for all of them. -/
theorem exists_texts_of_found
    (h : List.Forall₂ (fun q e => (Read.entryValue q
        (Read.keyText type reference (Path.elementStart path) q) key
        (Read.valueAt resolve nested type reference bs q)).outcome = .ok (some e))
      (Read.elementKeys type reference bs path) entries) :
    ∃ texts, Read.elementKeys type reference bs path = texts.map (Path.element path) ∧
      Telling type reference texts ∧
      List.Forall₂ (fun text e => key.decode (Utf8.encode text) = .ok (some e.1) ∧
        (Read.valueAt resolve nested type reference bs (Path.element path text)).outcome =
          .ok (some e.2)) texts entries := by
  obtain ⟨texts, hkeys, hentries⟩ := Lists.exists_forall₂_of_forall₂ h fun q hq e he =>
    (exists_text_of_found hq he).imp fun text ht =>
      (⟨⟨ht.1, ht.2.1⟩, ht.2.2⟩ : (q = Path.element path text ∧ _) ∧ _)
  have hmap : Read.elementKeys type reference bs path = texts.map (Path.element path) := by
    rw [← List.map_id (Read.elementKeys type reference bs path)]
    exact Lists.map_eq_map_of_forall₂ hkeys fun q text ht => ht.1
  refine ⟨texts, hmap, ⟨?_, fun hl text ht => ?_⟩, hentries.flip⟩
  · have hnodup : (Read.elementKeys type reference bs path).Nodup := Read.elementKeys_nodup type
    rw [hmap] at hnodup
    exact List.Nodup.of_map _ hnodup
  · obtain ⟨q, -, hq⟩ := Lists.exists_left_of_mem hkeys ht
    exact hq.2 hl

/-- The entries of a map whose keys are written as their own key texts. -/
theorem keyed_eq_of_forall₂ {texts : List String}
    (h : List.Forall₂ (fun text (e : Value × Value) => key.keyText e.1 = .ok text) texts entries) :
    (keyed key entries).map Prod.fst = texts := by
  rw [keyed, List.map_map, ← List.map_id texts]
  refine (Lists.map_eq_map_of_forall₂ h fun text e he => ?_).symm
  rw [Function.comp_apply, he]
  rfl

section MapProperty

variable (hp : path ≠ "") (hid : p.isId = false) (hs : p.shape = .map key type)
  (hag : ∀ k, Within path k → bs.get? k = es.get? k)
  (he : ∀ text w?, (Read.valueAt resolve nested type p.isReference bs
      (Path.element path text)).outcome = .ok w? →
    ElementTells r resolve es type p.isReference (Path.element path text) w?)
  (h : (Read.property resolve nested path p bs).outcome = .ok v?)

include he in
/-- A map that is read at its own key texts renews its region if all its values are normal, and
there is nothing else. -/
theorem renews_map_iff {texts : List String} (hid : p.isId = false) (hs : p.shape = .map key type)
    (ht : Telling type p.isReference texts)
    (hentries : List.Forall₂ (fun text (e : Value × Value) => key.keyText e.1 = .ok text ∧
      (Read.valueAt resolve nested type p.isReference bs (Path.element path text)).outcome =
        .ok (some e.2)) texts entries) :
    Renews (Leaves (Write.property r root path p (.map entries))) es (inRegion path) ↔
      Covered es type p.isReference path texts ∧ ∀ text ∈ texts,
        NormalValue r resolve es type p.isReference (Path.element path text) := by
  have hfst := keyed_eq_of_forall₂ (hentries.imp fun _ _ h => h.1)
  have htexts : ∀ e ∈ entries, ∃ text, key.keyText e.1 = .ok text := fun e hm => by
    obtain ⟨text, -, ht, -⟩ := Lists.exists_left_of_mem hentries hm
    exact ⟨text, ht⟩
  have hread : ∀ a ∈ keyed key entries, (Read.valueAt resolve nested type p.isReference bs
      (Path.element path a.1)).outcome = .ok (some a.2) := by
    intro a ha
    obtain ⟨e, hm, rfl⟩ := List.mem_map.1 ha
    obtain ⟨text, -, ht, hv⟩ := Lists.exists_left_of_mem hentries hm
    rw [ht]
    exact hv
  rw [Renews.congr fun xs => (leaves_map_iff hid hs).trans (and_iff_right htexts),
    renews_elements_iff (hfst ▸ ht) hread he, hfst]

include hs hag he h in
/-- A map in normal form is read entry by entry. -/
theorem entries_of_normal {texts : List String} (ht : Telling type p.isReference texts)
    (hkept : ∀ text ∈ texts, key.KeptKey text) (hk : Covered es type p.isReference path texts)
    (hn : ∀ text ∈ texts, NormalValue r resolve es type p.isReference (Path.element path text)) :
    ∃ texts' entries, texts'.Perm texts ∧
      v? = (if entries.isEmpty then none else some (.map entries)) ∧
      Telling type p.isReference texts' ∧
      List.Forall₂ (fun text (e : Value × Value) => key.keyText e.1 = .ok text ∧
        (Read.valueAt resolve nested type p.isReference bs (Path.element path text)).outcome =
          .ok (some e.2)) texts' entries := by
  have hkeys := elementKeys_perm_of_telling (fun k hk => hag k hk.within) hk ht fun text ht =>
    (hn text ht).exists_covered
  obtain ⟨found, hf, rfl⟩ := (Read.property_map_eq_ok_iff hs).1 h
  have hsome : (found.filterMap id).length = found.length := by
    rw [List.filterMap_length_eq_length]
    intro y hy
    obtain ⟨q, hq, hread⟩ := Lists.exists_left_of_mem hf hy
    obtain ⟨text, htext, rfl⟩ := List.mem_map.1 (hkeys.mem_iff.1 hq)
    obtain ⟨k, hd, -⟩ := hkept text htext
    have hkey : Read.keyText type p.isReference (Path.elementStart path)
        (Path.element path text) = some text := by
      rcases Read.isLeaf_or_nested type p.isReference with hl | ⟨name, rfl, hr⟩
      · rw [Read.keyText_of_isLeaf hl, Path.leafKey?_eq_some_iff]
      · rw [hr]
        exact Path.elementKey?_element (ht.no_bracket (by rw [hr]; rfl) text htext)
    rcases Read.entryValue_eq_ok_iff.1 hread with ⟨hnone, -⟩ | ⟨_, k', w, -, -, hw, rfl⟩
    · cases hd.symm.trans (hnone text hkey)
    · have := (he text w hw).found (hn text htext)
      cases w with
      | none => exact absurd rfl this
      | some w => rfl
  rw [Lists.eq_map_some_of_length_le hsome.ge, List.forall₂_map_right_iff] at hf
  obtain ⟨texts', hmap, ht', hentries⟩ := exists_texts_of_found hf
  have hperm : texts'.Perm texts := by
    rw [hmap] at hkeys
    exact (List.map_perm_map_iff (Path.element_injective path)).1 hkeys
  refine ⟨texts', _, hperm, rfl, ht', Lists.forall₂_imp_mem hentries fun text htext e _ he' => ?_⟩
  obtain ⟨k, hd, hkt⟩ := hkept text (hperm.mem_iff.1 htext)
  cases hd.symm.trans he'.1
  exact ⟨hkt, he'.2⟩

include hs hag h in
/-- **If a map accounts for all keys in its region, its key texts are written as they are**: there
are no more entries than key texts, so that writing them only permutes the key texts. -/
theorem texts_of_covered {entries : List (Value × Value)} (hv : v? = some (.map entries))
    (htexts : ∀ e ∈ entries, ∃ text, key.keyText e.1 = .ok text)
    (hk : Covered es type p.isReference path ((keyed key entries).map Prod.fst)) :
    ∃ texts, Telling type p.isReference texts ∧ (∀ text ∈ texts, key.KeptKey text) ∧
      List.Forall₂ (fun text (e : Value × Value) => key.keyText e.1 = .ok text ∧
        (Read.valueAt resolve nested type p.isReference bs (Path.element path text)).outcome =
          .ok (some e.2)) texts entries := by
  obtain ⟨found, hf, rfl⟩ := (Read.property_map_eq_ok_iff hs).1 h
  unfold Read.mapOf at hv
  split_ifs at hv
  cases hv
  have hrecodes : ∀ {text} {e : Value × Value}, e ∈ found.filterMap id →
      key.decode (Utf8.encode text) = .ok (some e.1) →
      key.Recodes text ((key.keyText e.1).toOption.getD "") := fun hm hd => by
    obtain ⟨t, ht⟩ := htexts _ hm
    exact ⟨_, hd, by rw [ht]; rfl⟩
  have hbracket : Read.isLeaf type p.isReference = false →
      ∀ t ∈ (keyed key (found.filterMap id)).map Prod.fst, ']' ∉ t.toList := by
    intro hl t ht
    rw [keyed, List.map_map] at ht
    obtain ⟨e, hm, rfl⟩ := List.mem_map.1 ht
    obtain ⟨y, hy, hye⟩ := List.mem_filterMap.1 hm
    rw [show y = some e from hye] at hy
    obtain ⟨q, hq, hread⟩ := Lists.exists_left_of_mem hf hy
    obtain ⟨text, -, hb, hd, -⟩ := exists_text_of_found hq hread
    exact ScalarType.not_mem_bracket_of_recodes (hrecodes hm hd) (hb hl)
  have hlen : ((keyed key (found.filterMap id)).map Prod.fst).length =
      (found.filterMap id).length := by rw [List.length_map, keyed, List.length_map]
  have hperm := elementKeys_perm_of_length (fun k hk => hag k hk.within) hk hbracket (by
    rw [hlen, hf.length_eq]
    exact List.length_filterMap_le _ _)
  have hall : found.length ≤ (found.filterMap id).length := by
    rw [← hf.length_eq, hperm.length_eq, List.length_map, hlen]
  rw [Lists.eq_map_some_of_length_le hall, List.forall₂_map_right_iff] at hf
  obtain ⟨texts, hmap, ht, hentries⟩ := exists_texts_of_found hf
  rw [hmap] at hperm
  replace hperm := (List.map_perm_map_iff (Path.element_injective path)).1 hperm
  have hrec : List.Forall₂ key.Recodes texts ((keyed key (found.filterMap id)).map Prod.fst) := by
    rw [keyed, List.map_map, List.forall₂_map_right_iff]
    exact Lists.forall₂_imp_mem hentries fun text _ e hm he => hrecodes hm he.1
  have heq := ScalarType.eq_of_recodes_perm hrec hperm
  rw [← heq, List.forall₂_same] at hrec
  refine ⟨texts, ht, hrec, Lists.forall₂_imp_mem hentries fun text htext e _ he => ?_⟩
  obtain ⟨k, hd, hkt⟩ := hrec text htext
  cases hd.symm.trans he.1
  exact ⟨hkt, he.2⟩

include hp hid hs hag he h

/-- What is read for a map tells whether it is normal. -/
theorem map_tells : PropertyTells r resolve es root path p v? := by
  constructor
  · rintro ⟨⟨k, hw, hne⟩, hn⟩
    obtain ⟨texts, ht, hkept, hk, hn⟩ := (normalProperty_map_iff hid hs).1 hn
    obtain ⟨texts', entries, hperm, rfl, -, hentries⟩ :=
      entries_of_normal hs hag he h ht hkept hk hn
    obtain ⟨text, htext, -⟩ := hk k hw hne
    obtain ⟨e, hm, -⟩ := Lists.exists_right_of_mem hentries (hperm.mem_iff.2 htext)
    rw [if_neg fun h0 => List.ne_nil_of_mem hm (List.isEmpty_iff.1 h0)]
    exact Option.some_ne_none _
  · rintro v rfl
    rw [and_iff_right (occupied_of_property hp hag h), normalProperty_map_iff hid hs]
    constructor
    · intro hrenews
      obtain ⟨found, -, hv⟩ := (Read.property_map_eq_ok_iff hs).1 h
      unfold Read.mapOf at hv
      split_ifs at hv
      cases hv
      generalize found.filterMap id = entries at h hrenews
      have hkeyed : ∀ xs, Leaves (Write.property r root path p (.map entries)) xs ↔
          (∀ e ∈ entries, ∃ text, key.keyText e.1 = .ok text) ∧
            ElementsLeave r path type p.isReference (keyed key entries) xs :=
        fun xs => leaves_map_iff hid hs
      have htexts : ∀ e ∈ entries, ∃ text, key.keyText e.1 = .ok text := by
        obtain ⟨xs, hl, -⟩ := hrenews
        exact ((hkeyed xs).1 hl).1
      have hk := covered_of_renews
        ((Renews.congr fun xs => (hkeyed xs).trans (and_iff_right htexts)).1 hrenews)
      obtain ⟨texts, ht, hkept, hentries⟩ := texts_of_covered hs hag h rfl htexts hk
      exact ⟨texts, ht, hkept, (renews_map_iff he hid hs ht hentries).1 hrenews⟩
    · rintro ⟨texts, ht, hkept, hk, hn⟩
      obtain ⟨texts', entries, hperm, hv, ht', hentries⟩ :=
        entries_of_normal hs hag he h ht hkept hk hn
      split_ifs at hv
      cases hv
      refine (renews_map_iff he hid hs ht' hentries).2 ⟨fun k hw hne => ?_, fun text htext => ?_⟩
      · obtain ⟨text, htext, hc⟩ := hk k hw hne
        exact ⟨text, hperm.mem_iff.2 htext, hc⟩
      · exact hn text (hperm.mem_iff.1 htext)

end MapProperty

/-! ## Properties -/

/-- What a reader of objects finds tells whether values are normal. -/
def NestedTells (r : Registry) (resolve : Resolver) (es : Entries) (nested : Read.Nested) : Prop :=
  ∀ type reference path bs v?, path ≠ "" → (∀ k, Within path k → bs.get? k = es.get? k) →
    (Read.valueAt resolve nested type reference bs path).outcome = .ok v? →
    ElementTells r resolve es type reference path v?

theorem property_tells (hn : NestedTells r resolve es nested) (hp : path ≠ "")
    (hid : p.isId = true → p.shape.isSingleScalar = true)
    (hsize : es.size ≤ Number.greatestWord) (hag : ∀ k, Within path k → bs.get? k = es.get? k)
    (h : (Read.property resolve nested path p bs).outcome = .ok v?) :
    PropertyTells r resolve es root path p v? := by
  have helement : ∀ type text w?, (Read.valueAt resolve nested type p.isReference bs
        (Path.element path text)).outcome = .ok w? →
      ElementTells r resolve es type p.isReference (Path.element path text) w? :=
    fun type text w? => hn _ _ _ _ _ (Path.element_ne_empty _ _) fun k hk =>
      hag k (.inr ((Path.below_element _ _).trans_within hk))
  by_cases hi : p.isId = true
  · obtain ⟨key, hs⟩ := Shape.isSingleScalar_iff.1 (hid hi)
    exact id_tells hp hi hs hag h
  · rw [Bool.not_eq_true] at hi
    cases hs : p.shape with
    | single type => exact single_tells hp hi hs hag (hn _ _ _ _ · hp hag) h
    | list type => exact list_tells hp hi hs hsize hag (helement type) h
    | map key type => exact map_tells hp hi hs hag (helement type) h

/-! ## Objects -/

theorem renews_field_iff (h : PropertyTells r resolve es root path p v?)
    (ho : ∀ v, v? = some v → es.Occupied path) :
    Renews (LeavesAt r root path p v?) es (inRegion path) ↔
      (es.Occupied path → NormalProperty r resolve es p path) := by
  cases v? with
  | some v => exact (h.renews v rfl).trans ⟨fun hn _ => hn.2, fun hn => ⟨ho v rfl, hn (ho v rfl)⟩⟩
  | none =>
    have hempty : (¬ es.Occupied path) ↔
        (es.Occupied path → NormalProperty r resolve es p path) :=
      ⟨fun hno hocc => absurd hocc hno, fun hn hocc => h.found ⟨hocc, hn hocc⟩ rfl⟩
    rw [← hempty]
    constructor
    · rintro ⟨_, rfl, hagrees⟩ ⟨k, hk, hne⟩
      exact hne (hagrees k (inRegion_iff.2 hk)).symm
    · intro hno
      refine ⟨[], rfl, fun k hk => ?_⟩
      by_contra hne
      exact hno ⟨k, inRegion_iff.1 hk, Ne.symm hne⟩

/-- **An object renews a region around it exactly if its type hint is what the record holds, all
its properties are normal, and there is nothing else.** -/
theorem renews_read_iff {t : EntityType} {base : String} {o : Object}
    {before : List (String × Bytes)} {outer : String → Bool}
    (hn : NestedTells r resolve es nested) (hsize : es.size ≤ Number.greatestWord)
    (hsound : t.Sound) (hnames : ∀ p ∈ t.properties, Path.IsName p.name)
    (hu : (t.properties.map (·.name)).Nodup)
    (hb : ∀ x ∈ before, x.1 = Path.hintOf base) (hh : outer (Path.hintOf base) = true)
    (ho : ∀ p ∈ t.properties, ∀ k, Within (Path.join base p.name) k → outer k = true)
    (hag : ∀ p ∈ t.properties, ∀ k, Within (Path.join base p.name) k → bs.get? k = es.get? k)
    (hfields : ∀ p ∈ t.properties,
      (Read.property resolve nested (Path.join base p.name) p bs).outcome = .ok (o.get? p.name)) :
    Renews (fun xs => ∃ ys, Leaves (Write.properties r root base o.fields t.properties) ys ∧
        xs = before ++ ys) es outer ↔
      Entries.lastOf before (Path.hintOf base) = es.get? (Path.hintOf base) ∧
        (∀ k, outer k = true → es.get? k ≠ none →
          k = Path.hintOf base ∨ ∃ p ∈ t.properties, Within (Path.join base p.name) k) ∧
        ∀ p ∈ t.properties, es.Occupied (Path.join base p.name) →
          NormalProperty r resolve es p (Path.join base p.name) := by
  rw [renews_object_iff hnames hu hb hh ho]
  refine and_congr_right' (and_congr_right' (forall₂_congr fun p hm => ?_))
  have hpath : Path.join base p.name ≠ "" := Path.join_ne_empty (hnames p hm).ne_empty
  have hid : p.isId = true → p.shape.isSingleScalar = true := fun hi =>
    ((EntityType.propertyViolation?_eq_none_iff.1 (hsound.property p hm)).1 hi).1
  have hread := hfields p hm
  refine renews_field_iff (property_tells hn hpath hid hsize (hag p hm) hread) fun v hv => ?_
  rw [show o.get? p.name = some v from hv] at hread
  exact occupied_of_property hpath (hag p hm) hread

/-- The type hint that is left for an object inside another is what the record holds exactly if the
record has no hint that names the declared type. -/
theorem lastOf_hints_iff {t : EntityType} {declared : String} (hb : r.Built) (hp : path ≠ "")
    (ht : TypeAt r es path declared t) :
    Entries.lastOf (Write.hints path t.name declared) (Path.hintOf path) =
        es.get? (Path.hintOf path) ↔
      es.get? (Path.hintOf path) ≠ some (Utf8.encode declared) := by
  obtain ⟨-, ⟨hnone, rfl⟩ | ⟨hsome, -⟩⟩ := ht.cases hb
  · simp [hnone, Write.hints]
  · have hne := (Entries.ne_empty_of_get? hsome).2
    rw [hsome, Write.hints]
    by_cases hd : t.name = declared
    · simp [hd]
    · rw [if_neg hd, Entries.lastOf_singleton,
        if_pos ⟨rfl, Path.ne_empty_of_within hp (Path.below_hintOf hp).within, hne⟩]
      simp [Utf8.encode_inj, hd]

theorem leaves_object_iff {t : EntityType} {declared : String} {o : Object}
    {xs : List (String × Bytes)} (hfind : r.find? t.name = some t)
    (ha : t.name = declared ∨ r.isAssignable t.name declared = true) (ho : o.type = t.name) :
    Leaves (Write.element r path (.entity declared) false o.toValue) xs ↔
      ∃ ys, Leaves (Write.properties r false path o.fields t.properties) ys ∧
        xs = Write.hints path t.name declared ++ ys := by
  rw [Write.leaves_nested_iff rfl]
  constructor
  · rintro ⟨type, fields, t', ys, hv, hfind', -, hl, rfl⟩
    obtain ⟨rfl, rfl⟩ : o.type = type ∧ o.fields = fields := by
      simpa [Object.toValue] using hv
    rw [ho] at hfind' ⊢
    cases hfind.symm.trans hfind'
    exact ⟨ys, hl, rfl⟩
  · rintro ⟨ys, hl, rfl⟩
    exact ⟨t.name, o.fields, t, ys, by rw [Object.toValue, ho], hfind, ha, hl, rfl⟩

/-- An object inside another renews its region exactly if it is normal. -/
theorem renews_nested_iff {declared : String} {o : Object} {depth : Nat} (hb : r.Built)
    (hr : r.Named) (hsize : es.size ≤ Number.greatestWord)
    (hn : NestedTells r resolve es (Read.object r resolve depth)) (hp : path ≠ "")
    (hag : ∀ k, Within path k → bs.get? k = es.get? k)
    (hne : ∃ k, Below path k ∧ es.get? k ≠ none)
    (h : (Read.object r resolve (depth + 1) path declared (bs.extract path)).outcome = .ok o) :
    Renews (Leaves (Write.element r path (.entity declared) false o.toValue)) es
        (covers (.entity declared) false path) ↔
      NormalValue r resolve es (.entity declared) false path := by
  obtain ⟨t, hresolve, htype, hfields⟩ := Read.fields_of_object hr.distinct h
  have hhint : (bs.extract path).get? Path.hint = es.get? (Path.hintOf path) := by
    rw [Entries.get?_extract_hint, hag _ (Path.below_hintOf hp).within]
  have ht := (typeAt_iff hhint).2 hresolve
  obtain ⟨hfind, htypes⟩ := ht.cases hb
  have hnames := hr.isName _ t hfind
  have hbelow : ∀ p ∈ t.properties, ∀ k, Within (Path.join path p.name) k → Below path k :=
    fun p _ k hk => (Path.below_join hp p.name).trans_within hk
  have hagree : ∀ p ∈ t.properties, ∀ k, Within (Path.join path p.name) k →
      (bs.extract path).get? k = es.get? k := fun p hm k hk => by
    have hkh : k ≠ Path.hint := fun hkh =>
      Path.not_within_join_hint (hnames p hm) (hkh ▸ hk)
    rw [Entries.get?_extract_of_below hkh (hbelow p hm k hk), hag k (hbelow p hm k hk).within]
  rw [Renews.congr fun xs =>
      leaves_object_iff hfind (htypes.imp (fun h => h.2) fun h => h.2) htype,
    renews_read_iff hn hsize (hb.sound hfind).2 hnames (hr.distinct _ t hfind)
      (fun x => Write.fst_of_mem_hints)
      ((covers_nested_iff rfl).2 (Path.below_hintOf hp).within)
      (fun p hm k hk => (covers_nested_iff rfl).2 (hbelow p hm k hk).within) hagree hfields,
    lastOf_hints_iff hb hp ht, normalValue_nested_iff]
  have hcovers : ∀ k, covers (.entity declared) false path k = true ↔ Within path k :=
    fun k => covers_nested_iff rfl
  simp only [hcovers]
  constructor
  · rintro ⟨hh, hk, hps⟩
    exact ⟨t, ht, hh, hne, hk, hps⟩
  · rintro ⟨t', ht', hh, -, hk, hps⟩
    cases ht.unique ht'
    exact ⟨hh, hk, hps⟩

/-- Leaves tell by themselves whether they are normal, and so does the lack of entries. -/
theorem nestedTells_of_object (h : ∀ declared path (bs : Entries) o, path ≠ "" →
    (∀ k, Within path k → bs.get? k = es.get? k) → (∃ k, Below path k ∧ es.get? k ≠ none) →
    (nested path declared (bs.extract path)).outcome = .ok o →
      (Renews (Leaves (Write.element r path (.entity declared) false o.toValue)) es
          (covers (.entity declared) false path) ↔
        NormalValue r resolve es (.entity declared) false path)) :
    NestedTells r resolve es nested := by
  intro type reference path bs v? hp hag hread
  rcases Read.isLeaf_or_nested type reference with hl | ⟨declared, rfl, rfl⟩
  · exact leaf_tells hl (hag path (.self path)) hread
  have hinner := Read.inner_eq_ok_iff.1 hread
  split_ifs at hinner with hempty
  · subst hinner
    refine ⟨fun hn => ?_, fun v hv => by cases hv⟩
    obtain ⟨-, -, -, ⟨k, hk, hne⟩, -⟩ := normalValue_nested_iff.1 hn
    rw [← hag k hk.within] at hne
    exact absurd ((Entries.size_extract_eq_zero_iff hp).1 hempty k hk) hne
  · obtain ⟨o, ho, rfl⟩ := hinner
    have hne : ∃ k, Below path k ∧ es.get? k ≠ none := by
      rw [Entries.size_extract_eq_zero_iff hp] at hempty
      push Not at hempty
      obtain ⟨k, hk, hne⟩ := hempty
      exact ⟨k, hk, by rwa [← hag k hk.within]⟩
    refine ⟨fun _ => Option.some_ne_none _, fun v hv => ?_⟩
    cases hv
    exact h declared path bs o hp hag hne ho

/-- **What is read at any depth tells whether values are normal.** -/
theorem nested_tells (hb : r.Built) (hr : r.Named) (hsize : es.size ≤ Number.greatestWord)
    (depth : Nat) : NestedTells r resolve es (Read.object r resolve depth) := by
  induction depth with
  | zero => exact nestedTells_of_object fun _ _ _ _ _ _ _ h => by cases h
  | succ depth ih =>
    exact nestedTells_of_object fun declared path bs o hp hag hne h =>
      renews_nested_iff hb hr hsize ih hp hag hne h

/-! ## Records -/

/-- The type hint that is left for the root is what the record holds. -/
theorem lastOf_root_iff {type : String} :
    Entries.lastOf [(Path.hint, Utf8.encode type)] Path.hint = es.get? Path.hint ↔
      (es.get? Path.hint).getD [] = Utf8.encode type := by
  have hhint : Path.hint ≠ "" := by decide
  rw [Entries.lastOf_singleton]
  by_cases hne : Utf8.encode type = []
  · rw [if_neg fun h => h.2.2 hne, hne]
    cases hh : es.get? Path.hint with
    | none => simp
    | some raw => simpa using (Entries.ne_empty_of_get? hh).2
  · rw [if_pos ⟨rfl, hhint, hne⟩]
    cases es.get? Path.hint with
    | none => simpa using Ne.symm hne
    | some raw => simpa using eq_comm

/-- What a write leaves in a record that is the same as another. -/
theorem write_same_iff {o : Object} {t : EntityType} {ix : Indexes} (ht : r.find? o.type = some t) :
    (∃ record, (r.write ix o).1 = .ok record ∧ record.entries.same es = true) ↔
      Renews (Leaves (r.outline t o)) es fun _ => true := by
  have hagrees : ∀ xs, (Entries.empty.putAll xs).same es = true ↔ Agrees xs es fun _ => true := by
    intro xs
    rw [Entries.same_iff]
    exact ⟨fun h k _ => h k, fun h k => h k rfl⟩
  constructor
  · rintro ⟨record, hw, hsame⟩
    obtain ⟨t', xs, ht', hl, hes⟩ := Write.write_entries_iff.1 ⟨record, hw, rfl⟩
    cases ht.symm.trans ht'
    rw [hes] at hsame
    exact ⟨xs, hl, (hagrees xs).1 hsame⟩
  · rintro ⟨xs, hl, hx⟩
    obtain ⟨record, hw, hes⟩ := Write.write_entries_iff.2 ⟨t, xs, ht, hl, rfl⟩
    refine ⟨record, hw, ?_⟩
    rw [hes]
    exact (hagrees xs).2 hx

end Rewrite

open Rewrite in
/-- **An object that was read is written as the record it was read from exactly if the record is in
normal form**: if no entry of the record is lost, moved or changed by way of the object. The record
may be any, as long as a machine word can count its entries. -/
theorem rewrite_iff_normal {r : Registry} (hb : r.Built) (hr : r.Named) {resolve : Resolver}
    {type : String} {es : Entries} (hsize : es.size ≤ Number.greatestWord) {o : Object}
    (h : (r.read resolve type es).outcome = .ok (some o)) (ix : Indexes) :
    (∃ record, (r.write ix o).1 = .ok record ∧ record.entries.same es = true) ↔
      Normal r resolve es type := by
  have ho := (Registry.read_eq_some_iff.1 h).2
  obtain ⟨t, hresolve, htype, hfields⟩ := Read.fields_of_object hr.distinct ho
  have ht : TypeAt r es "" type t := (typeAt_iff (by rw [Path.hintOf_empty])).2 hresolve
  obtain ⟨hfind, -⟩ := ht.cases hb
  have hleaves : ∀ xs, Leaves (r.outline t o) xs ↔
      ∃ ys, Leaves (Write.properties r true "" o.fields t.properties) ys ∧
        xs = [(Path.hint, Utf8.encode t.name)] ++ ys := fun xs => by
    rw [Write.leaves_outline_iff, htype]
    rfl
  rw [write_same_iff (htype ▸ hfind), Renews.congr hleaves,
    renews_read_iff (nested_tells hb hr hsize _) hsize (hb.sound hfind).2 (hr.isName _ t hfind)
      (hr.distinct _ t hfind) (by simp) rfl (fun _ _ _ _ => rfl) (fun _ _ _ _ => rfl) hfields]
  simp only [Path.hintOf_empty, Path.join_empty, lastOf_root_iff, true_implies]
  constructor
  · rintro ⟨hh, hk, hps⟩
    exact ⟨t, ht, hh, hk, hps⟩
  · rintro ⟨t', ht', hh, hk, hps⟩
    cases ht.unique ht'
    exact ⟨hh, hk, hps⟩

/-! ## A missing label -/

theorem built_shelves : shelves.Built :=
  .register .empty (t := { name := "Shelf", properties := [labels] }) (by rfl)

theorem named_shelves : shelves.Named := .of_types (by decide)

/-- A shelf whose second label is missing. -/
def gapped : Object where
  type := "Shelf"
  fields := [("labels", .list [.text "a", .null, .text "b"])]

/-- The record of the shelf, with a gap in the list. -/
def gap : Entries := Entries.empty.putAll
  [("_class", Utf8.encode "Shelf"), ("labels.[0]", [0x61]), ("labels.[2]", [0x62])]

/-- The shelf that is read from the record, with the labels moved together. -/
def shifted : Object where
  type := "Shelf"
  fields := [("labels", .list [.text "a", .text "b"])]

theorem read_gap : (shelves.read .nothing "Shelf" gap).outcome = .ok (some shifted) := by
  have helements : (Read.elements .nothing (Read.object shelves .nothing
      (shelves.size + gap.longestKey + 1)) "labels" (.scalar .text) false gap).outcome =
      .ok ([(0, .text "a"), (2, .text "b")].map some) := by decide +kernel
  have hlabels : Read.listOf ([(0, .text "a"), (2, .text "b")].map some) =
      some (.list [.text "a", .text "b"]) := by
    rw [Read.listOf_map_some (by simp), Read.inOrder_of_places (by decide)]
    rfl
  exact Registry.read_eq_some_iff.2 ⟨by decide, Read.object_eq_ok_iff.2
    ⟨{ name := "Shelf", properties := [labels] }, [("labels", some (.list [.text "a", .text "b"]))],
      by decide +kernel, .cons ⟨rfl, (Read.property_list_eq_ok_iff_elements rfl).2
        ⟨_, helements, hlabels.symm⟩⟩ .nil, rfl⟩⟩

theorem write_gapped : (shelves.write {} gapped).1.toOption.map (·.entries) = some gap := by
  decide +kernel

theorem write_shifted (record : Record) (h : (shelves.write {} shifted).1 = .ok record) :
    record.entries.same gap = false := by
  have hsame : (shelves.write {} shifted).1.toOption.map (·.entries.same gap) = some false := by
    decide +kernel
  rw [h] at hsame
  exact Option.some.inj hsame

/-- A list with a gap is not normal. -/
theorem not_normal_gap : ¬ Normal shelves .nothing gap "Shelf" := by
  intro hn
  obtain ⟨record, hw, hsame⟩ :=
    (rewrite_iff_normal built_shelves named_shelves (by decide) read_gap {}).2 hn
  rw [write_shifted record hw] at hsame
  cases hsame

/-- The record of an object need not be in normal form, even where no type has references. -/
theorem not_rewrite_of_gap :
    ¬ ∀ (r : Registry), r.Built → r.Named →
      (∀ name t, r.find? name = some t → ∀ p ∈ t.properties, p.isReference = false) →
      ∀ (ix : Indexes) (resolve : Resolver) (o o' : Object) (record : Record),
        (r.write ix o).1 = .ok record →
        (r.read resolve o.type record.entries).outcome = .ok (some o') →
        ∃ record', (r.write ix o').1 = .ok record' ∧
          record'.entries.same record.entries = true := by
  intro h
  match hw : (shelves.write {} gapped).1 with
  | .error e =>
    have hnone := write_gapped
    rw [hw] at hnone
    cases hnone
  | .ok record =>
    have hentries := write_gapped
    rw [hw] at hentries
    replace hentries : record.entries = gap := Option.some.inj hentries
    have hwhole : ∀ e ∈ shelves.types, ∀ p ∈ e.2.properties, p.isReference = false := by decide
    obtain ⟨record', hw', hsame⟩ := h shelves built_shelves named_shelves
      (fun _ _ ht => hwhole _ (Registry.mem_types_of_find? ht))
      {} .nothing gapped shifted record hw (hentries ▸ read_gap)
    rw [hentries, write_shifted record' hw'] at hsame
    cases hsame

end FlatGraph
