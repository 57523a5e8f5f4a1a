import FlatGraph.Proofs.Convert.Elements
import FlatGraph.Proofs.Model.Registry
import FlatGraph.Proofs.Value
import Mathlib.Data.List.Perm.Basic

/-!
# The order of a record

A store may return the entries of a record in any order. **Whether a record can be read does not
depend on it, and neither does what is read** (`read_perm`), up to the order of the entries of
maps, as long as the elements of each list that is read have indexes of their own. Lists come back
in the order of these indexes.

A read asks a record for the value at a key, for what lies below a path, and for the keys of
elements; reordered records answer alike, the last one up to the order of the keys. So each
computation on one record is matched by one on the other (`object_perm`, by induction on the
depth), and the values of a list, sorted by places that differ, can be in one order only.
-/

namespace FlatGraph

/-! ## Values up to the order of maps -/

/-- The values are the same, except that entries of maps may be in another order. -/
inductive Rearranged : Value → Value → Prop
  | refl (v : Value) : Rearranged v v
  | list {as bs : List Value} (h : List.Forall₂ Rearranged as bs) :
      Rearranged (.list as) (.list bs)
  | map {as bs cs : List (Value × Value)} (hp : as.Perm bs)
      (hk : bs.map Prod.fst = cs.map Prod.fst)
      (h : List.Forall₂ Rearranged (bs.map Prod.snd) (cs.map Prod.snd)) :
      Rearranged (.map as) (.map cs)
  | object {type : String} {as bs : List (String × Value)}
      (hn : as.map Prod.fst = bs.map Prod.fst)
      (h : List.Forall₂ Rearranged (as.map Prod.snd) (bs.map Prod.snd)) :
      Rearranged (.object type as) (.object type bs)

/-! ## Lists in the order of their places -/

namespace Read

/-- Whether a value has its place before another. -/
def byPlace (a b : Nat × Value) : Bool := a.1 ≤ b.1

theorem inOrder_eq (found : List (Nat × Value)) :
    inOrder found = (found.mergeSort byPlace).map (·.2) := rfl

theorem pairwise_byPlace (found : List (Nat × Value)) :
    (found.mergeSort byPlace).Pairwise fun a b => a.1 ≤ b.1 :=
  Lists.pairwise_mergeSort Prod.fst found

/-- Values with different places have one order. -/
theorem mergeSort_eq_of_perm {as bs : List (Nat × Value)} (hp : as.Perm bs)
    (hd : (as.map Prod.fst).Nodup) : as.mergeSort byPlace = bs.mergeSort byPlace := by
  have hperm := (List.mergeSort_perm as byPlace).trans
    (hp.trans (List.mergeSort_perm bs byPlace).symm)
  refine hperm.eq_of_pairwise (fun a b ha hb hab hba => ?_) (pairwise_byPlace as)
    (pairwise_byPlace bs)
  have hb' : b ∈ as := hp.mem_iff.2 (List.mem_mergeSort.1 hb)
  exact List.inj_on_of_nodup_map hd (List.mem_mergeSort.1 ha) hb' (le_antisymm hab hba)

/-- Values with different places come in the order of these. -/
theorem inOrder_of_perm {found sorted : List (Nat × Value)} (hp : sorted.Perm found)
    (hs : (sorted.map Prod.fst).Pairwise (· < ·)) : inOrder found = sorted.map (·.2) := by
  rw [← inOrder_of_places (hs.imp le_of_lt), inOrder_eq, inOrder_eq,
    mergeSort_eq_of_perm hp (hs.imp ne_of_lt)]

/-- Sorting by places keeps values with the same places together. -/
theorem forall₂_mergeSort {R : Value → Value → Prop} {as bs : List (Nat × Value)}
    (h : List.Forall₂ (fun a b => a.1 = b.1 ∧ R a.2 b.2) as bs) :
    List.Forall₂ (fun a b => a.1 = b.1 ∧ R a.2 b.2)
      (as.mergeSort byPlace) (bs.mergeSort byPlace) := by
  have hlen := h.length_eq
  have hmem : ∀ p ∈ as.zip bs, p.1.1 = p.2.1 ∧ R p.1.2 p.2.2 := fun p hp =>
    List.forall₂_zip h hp
  let zipped := (as.zip bs).mergeSort fun p q => byPlace p.1 q.1
  have hfst : zipped.map Prod.fst = as.mergeSort byPlace := by
    have := List.map_mergeSort (l := as.zip bs) (r := fun p q => byPlace p.1 q.1) (s := byPlace)
      (f := Prod.fst) fun _ _ _ _ => rfl
    rwa [List.map_fst_zip (le_of_eq hlen)] at this
  have hsnd : zipped.map Prod.snd = bs.mergeSort byPlace := by
    have := List.map_mergeSort (l := as.zip bs) (r := fun p q => byPlace p.1 q.1) (s := byPlace)
      (f := Prod.snd) fun p hp q hq => by
        rw [byPlace, byPlace, (hmem p hp).1, (hmem q hq).1]
    rwa [List.map_snd_zip (ge_of_eq hlen)] at this
  rw [← hfst, ← hsnd, List.forall₂_map_left_iff, List.forall₂_map_right_iff, List.forall₂_same]
  exact fun p hp => hmem p (List.mem_mergeSort.1 hp)

end Read

/-! ## What a read visits -/

/-- The object inside is read: of a property with a single value, of an element of a list, or of a
map entry whose key stands for a value. -/
def Nests (p : Property) (path : String) (es : Entries) (inner type : String) : Prop :=
  p.isReference = false ∧ (es.extract inner).size ≠ 0 ∧
    (p.shape = .single (.entity type) ∧ inner = path ∨
      p.shape = .list (.entity type) ∧ inner ∈ Read.elementKeys (.entity type) false es path ∨
      ∃ key text v, p.shape = .map key (.entity type) ∧
        inner ∈ Read.elementKeys (.entity type) false es path ∧
        Read.keyText (.entity type) false (Path.elementStart path) inner = some text ∧
        key.decode (Utf8.encode text) = .ok (some v))

/-- The read of an object at a path visits a property at a path, with the entries it is read
from. -/
inductive Visits (r : Registry) : String → String → Entries → String → Property → Entries → Prop
  | here {path declared : String} {es : Entries} {t : EntityType} {p : Property}
      (ht : Read.resolveType r path declared es = .ok t) (hp : p ∈ t.properties) :
      Visits r path declared es (Path.join path p.name) p es
  | inside {path declared inner type at' : String} {es es' : Entries} {t : EntityType}
      {p q : Property} (ht : Read.resolveType r path declared es = .ok t) (hp : p ∈ t.properties)
      (hn : Nests p (Path.join path p.name) es inner type)
      (h : Visits r inner type (es.extract inner) at' q es') :
      Visits r path declared es at' q es'

/-- The elements of a list have indexes in the record that differ from each other. What is no
index has the place `Number.greatestWord`. -/
def Numbered (type : TypeRef) (reference : Bool) (path : String) (es : Entries) : Prop :=
  (∀ k ∈ Read.elementKeys type reference es path,
      Read.place k (Path.elementStart path) < Number.greatestWord) ∧
    ((Read.elementKeys type reference es path).map
      (Read.place · (Path.elementStart path))).Nodup

/-- The elements of each list that a read visits are numbered. -/
def AllNumbered (r : Registry) (path declared : String) (es : Entries) : Prop :=
  ∀ at' p es' type, Visits r path declared es at' p es' → p.shape = .list type →
    Numbered type p.isReference at' es'

namespace Read

/-! ## Reading in another order -/

/-- What is found in two records, if `c` holds. -/
def Alike (c : Prop) (v w : Option Value) : Prop := c → Option.Rel Rearranged v w

theorem Alike.refl (c : Prop) (v : Option Value) : Alike c v v := fun _ => by
  cases v with
  | none => exact .none
  | some v => exact .some (.refl v)

section Perm

variable {as bs : Entries} {type : TypeRef} {reference : Bool} {path : String} {c : Prop}
  {resolve : Resolver} {nested : Nested} {p : Property}

/-- Objects inside that can be read from one record can be read from the other. -/
def NestedAlike (c : Prop) (nested : Nested) (as bs : Entries) (inner type : String) : Prop :=
  ∀ o, (nested inner type (as.extract inner)).outcome = .ok o →
    ∃ o', (nested inner type (bs.extract inner)).outcome = .ok o' ∧
      (c → Rearranged o.toValue o'.toValue)

theorem elementKeys_perm (h : as.toList.Perm bs.toList) :
    (elementKeys type reference as path).Perm (elementKeys type reference bs path) := by
  rcases isLeaf_or_nested type reference with hl | ⟨name, rfl, rfl⟩
  · rw [elementKeys_of_isLeaf hl, elementKeys_of_isLeaf hl]
    exact (Entries.below_perm h _).map _
  · exact Entries.elementPaths_perm h _

theorem valueAt_perm (h : as.toList.Perm bs.toList) {v : Option Value}
    (hn : ∀ name, type = .entity name → reference = false → (as.extract path).size ≠ 0 →
      NestedAlike c nested as bs path name)
    (hv : (valueAt resolve nested type reference as path).outcome = .ok v) :
    ∃ w, (valueAt resolve nested type reference bs path).outcome = .ok w ∧ Alike c v w := by
  rcases isLeaf_or_nested type reference with hl | ⟨name, rfl, rfl⟩
  · rw [valueAt_of_isLeaf hl, Entries.get?_of_perm h] at hv
    rw [valueAt_of_isLeaf hl]
    exact ⟨v, hv, .refl c v⟩
  · have hsize := Entries.size_perm (Entries.extract_perm h path)
    have hv' := inner_eq_ok_iff.1 hv
    by_cases hz : (as.extract path).size = 0
    · rw [if_pos hz] at hv'
      subst hv'
      exact ⟨none, inner_eq_ok_iff.2 (by rw [if_pos (hsize ▸ hz)]), fun _ => .none⟩
    · rw [if_neg hz] at hv'
      obtain ⟨o, ho, rfl⟩ := hv'
      obtain ⟨o', ho', hc⟩ := hn name rfl rfl hz o ho
      refine ⟨some o'.toValue, inner_eq_ok_iff.2 ?_, fun h => .some (hc h)⟩
      rw [if_neg (hsize ▸ hz)]
      exact ⟨o', ho', rfl⟩

/-- Members that are found for the keys of one record are found for those of the other. -/
theorem exists_found {β : Type} {R S : String → β → Prop} {T : β → β → Prop}
    {keys keys' : List String} {found : List β} (h : keys.Perm keys')
    (hf : List.Forall₂ R keys found) (hs : ∀ k ∈ keys, ∀ x, R k x → ∃ y, S k y ∧ T x y) :
    ∃ mid found', mid.Perm found ∧ List.Forall₂ T mid found' ∧ List.Forall₂ R keys' mid ∧
      List.Forall₂ S keys' found' := by
  obtain ⟨mid, hmid, hperm⟩ := List.perm_comp_forall₂ h.symm hf
  obtain ⟨found', hf', hrel⟩ := Lists.exists_forall₂_of_forall₂ hmid fun k hk x hx =>
    hs k (h.mem_iff.2 hk) x hx
  exact ⟨mid, found', hperm, hrel, hmid, hf'⟩

/-! ### Lists -/

/-- What is found for an element of a list. -/
def FoundAt (resolve : Resolver) (nested : Nested) (type : TypeRef) (reference : Bool)
    (es : Entries) (path : String) (k : String) (y : Option (Nat × Value)) : Prop :=
  ∃ w, (valueAt resolve nested type reference es k).outcome = .ok w ∧
    y = w.map (place k (Path.elementStart path), ·)

theorem places_sublist {es : Entries} {keys : List String} {found : List (Option (Nat × Value))}
    (h : List.Forall₂ (FoundAt resolve nested type reference es path) keys found) :
    ((found.filterMap id).map Prod.fst).Sublist
      (keys.map (place · (Path.elementStart path))) := by
  induction h with
  | nil => exact .slnil
  | cons hk _ ih =>
    obtain ⟨w, -, rfl⟩ := hk
    cases w with
    | none => exact ih.cons _
    | some w => exact ih.cons_cons _

theorem isEmpty_eq_of_forall₂ {α β : Type} {R : α → β → Prop} {xs : List α} {ys : List β}
    (h : List.Forall₂ R xs ys) : xs.isEmpty = ys.isEmpty := by
  cases h <;> rfl

theorem list_perm (h : as.toList.Perm bs.toList) (hs : p.shape = .list type)
    (hv : ∀ k ∈ elementKeys type p.isReference as path, ∀ w,
      (valueAt resolve nested type p.isReference as k).outcome = .ok w →
        ∃ w', (valueAt resolve nested type p.isReference bs k).outcome = .ok w' ∧ Alike c w w')
    (hn : c → Numbered type p.isReference path as) {v : Option Value}
    (ha : (property resolve nested path p as).outcome = .ok v) :
    ∃ w, (property resolve nested path p bs).outcome = .ok w ∧ Alike c v w := by
  obtain ⟨found, hf, rfl⟩ := (property_list_eq_ok_iff hs).1 ha
  have hkeys : (elementKeys type p.isReference as path).Perm
      (elementKeys type p.isReference bs path) := elementKeys_perm h
  obtain ⟨mid, found', hperm, hrel, hmid, hf'⟩ := exists_found
    (R := FoundAt resolve nested type p.isReference as path)
    (S := FoundAt resolve nested type p.isReference bs path)
    (T := fun x y => c → Option.Rel (fun a b => a.1 = b.1 ∧ Rearranged a.2 b.2) x y) hkeys hf
    fun k hk x hx => by
      obtain ⟨w, hw, rfl⟩ := hx
      obtain ⟨w', hw', hc⟩ := hv k hk w hw
      refine ⟨_, ⟨w', hw', rfl⟩, fun h => ?_⟩
      cases hc h with
      | some hr => exact .some ⟨rfl, hr⟩
      | none => exact .none
  refine ⟨listOf found', (property_list_eq_ok_iff hs).2 ⟨found', hf', rfl⟩, fun hc => ?_⟩
  have hfound : (mid.filterMap id).Perm (found.filterMap id) := hperm.filterMap id
  have hpairs : List.Forall₂ (fun a b => a.1 = b.1 ∧ Rearranged a.2 b.2) (mid.filterMap id)
      (found'.filterMap id) :=
    List.rel_filterMap (fun _ _ h => h) (hrel.imp fun _ _ h => h hc)
  have hnodup : ((mid.filterMap id).map Prod.fst).Nodup :=
    (((hkeys.map _).nodup_iff.1 (hn hc).2).sublist (places_sublist hmid))
  have hempty : (found.filterMap id).isEmpty = (found'.filterMap id).isEmpty := by
    rw [← isEmpty_eq_of_forall₂ hpairs]
    exact hfound.symm.isEmpty_eq
  unfold listOf
  rw [hempty]
  split
  · exact .none
  · refine .some (.list ?_)
    rw [inOrder_eq, inOrder_eq, ← mergeSort_eq_of_perm hfound hnodup,
      List.forall₂_map_left_iff, List.forall₂_map_right_iff]
    exact (forall₂_mergeSort hpairs).imp fun _ _ h => h.2

/-- The value is the list of what is read at these keys, one after another. -/
def ListAt (resolve : Resolver) (nested : Nested) (type : TypeRef) (reference : Bool)
    (es : Entries) (keys : List String) (v : Option Value) : Prop :=
  ∃ ws, List.Forall₂ (fun k w => (valueAt resolve nested type reference es k).outcome = .ok w)
      keys ws ∧
    v = if (ws.filterMap id).isEmpty then none else some (.list (ws.filterMap id))

/-- **A list comes back in the order of its indexes.** -/
theorem list_ascending {es : Entries} (hs : p.shape = .list type)
    (hn : Numbered type p.isReference path es) {v : Option Value}
    (hv : (property resolve nested path p es).outcome = .ok v) :
    ∃ keys, keys.Perm (elementKeys type p.isReference es path) ∧
      (keys.map (place · (Path.elementStart path))).Pairwise (· < ·) ∧
      ListAt resolve nested type p.isReference es keys v := by
  obtain ⟨found, hf, rfl⟩ := (property_list_eq_ok_iff hs).1 hv
  let before (k l : String) : Bool :=
    place k (Path.elementStart path) ≤ place l (Path.elementStart path)
  have hperm := List.mergeSort_perm (elementKeys type p.isReference es path) before
  have hsorted : (((elementKeys type p.isReference es path).mergeSort before).map
      (place · (Path.elementStart path))).Pairwise (· ≤ ·) :=
    List.pairwise_map.2 (Lists.pairwise_mergeSort (place · (Path.elementStart path)) _)
  have hnodup := (hperm.map (place · (Path.elementStart path))).nodup_iff.2 hn.2
  obtain ⟨mid, hmid, hfound⟩ := List.perm_comp_forall₂ hperm hf
  have hvalues : ∀ {keys : List String} {ys : List (Option (Nat × Value))},
      List.Forall₂ (FoundAt resolve nested type p.isReference es path) keys ys →
      ∃ ws, List.Forall₂ (fun k w =>
          (valueAt resolve nested type p.isReference es k).outcome = .ok w) keys ws ∧
        ws.filterMap id = (ys.filterMap id).map Prod.snd := by
    intro keys ys h
    induction h with
    | nil => exact ⟨[], .nil, rfl⟩
    | cons hk _ ih =>
      obtain ⟨w, hw, rfl⟩ := hk
      obtain ⟨ws, hws, heq⟩ := ih
      refine ⟨w :: ws, .cons hw hws, ?_⟩
      cases w with
      | none => exact heq
      | some w => exact congrArg (w :: ·) heq
  obtain ⟨ws, hws, heq⟩ := hvalues hmid
  have hstrict := (List.pairwise_and_iff.2 ⟨hsorted, hnodup⟩).imp fun h => lt_of_le_of_ne h.1 h.2
  have hmids : (mid.filterMap id).Perm (found.filterMap id) := hfound.filterMap id
  refine ⟨_, hperm, hstrict, ws, hws, ?_⟩
  have horder : inOrder (found.filterMap id) = ws.filterMap id := by
    rw [heq, inOrder_of_perm hmids (hstrict.sublist (places_sublist hmid))]
  have hempty : (found.filterMap id).isEmpty = (ws.filterMap id).isEmpty := by
    rw [heq, List.isEmpty_map, hmids.isEmpty_eq]
  rw [listOf, horder, hempty]

/-! ### Maps -/

theorem map_perm {key : ScalarType} (h : as.toList.Perm bs.toList) (hs : p.shape = .map key type)
    (hv : ∀ k ∈ elementKeys type p.isReference as path, ∀ text v,
      keyText type p.isReference (Path.elementStart path) k = some text →
      key.decode (Utf8.encode text) = .ok (some v) → ∀ w,
      (valueAt resolve nested type p.isReference as k).outcome = .ok w →
        ∃ w', (valueAt resolve nested type p.isReference bs k).outcome = .ok w' ∧ Alike c w w')
    {v : Option Value} (ha : (property resolve nested path p as).outcome = .ok v) :
    ∃ w, (property resolve nested path p bs).outcome = .ok w ∧ Alike c v w := by
  obtain ⟨found, hf, rfl⟩ := (property_map_eq_ok_iff hs).1 ha
  have hkeys : (elementKeys type p.isReference as path).Perm
      (elementKeys type p.isReference bs path) := elementKeys_perm h
  obtain ⟨mid, found', hperm, hrel, -, hf'⟩ := exists_found
    (T := fun x y => c → Option.Rel (fun a b => a.1 = b.1 ∧ Rearranged a.2 b.2) x y)
    (S := fun k y => (entryValue k (keyText type p.isReference (Path.elementStart path) k) key
      (valueAt resolve nested type p.isReference bs k)).outcome = .ok y) hkeys hf
    fun k hk x hx => by
      rcases entryValue_eq_ok_iff.1 hx with ⟨hnone, rfl⟩ | ⟨text, kv, w, ht, hd, hw, rfl⟩
      · exact ⟨none, entryValue_eq_ok_iff.2 (.inl ⟨hnone, rfl⟩), fun _ => .none⟩
      · obtain ⟨w', hw', hc⟩ := hv k hk text kv ht hd w hw
        refine ⟨_, entryValue_eq_ok_iff.2 (.inr ⟨text, kv, w', ht, hd, hw', rfl⟩), fun h => ?_⟩
        cases hc h with
        | some hr => exact .some ⟨rfl, hr⟩
        | none => exact .none
  refine ⟨mapOf found', (property_map_eq_ok_iff hs).2 ⟨found', hf', rfl⟩, fun hc => ?_⟩
  have hfound : (mid.filterMap id).Perm (found.filterMap id) := hperm.filterMap id
  have hpairs : List.Forall₂ (fun a b => a.1 = b.1 ∧ Rearranged a.2 b.2) (mid.filterMap id)
      (found'.filterMap id) :=
    List.rel_filterMap (fun _ _ h => h) (hrel.imp fun _ _ h => h hc)
  have hempty : (found.filterMap id).isEmpty = (found'.filterMap id).isEmpty := by
    rw [← isEmpty_eq_of_forall₂ hpairs]
    exact hfound.symm.isEmpty_eq
  unfold mapOf
  rw [hempty]
  split
  · exact .none
  · refine .some (.map hfound.symm (Lists.map_eq_map_of_forall₂ hpairs fun _ _ h => h.1) ?_)
    rw [List.forall₂_map_left_iff, List.forall₂_map_right_iff]
    exact hpairs.imp fun _ _ h => h.2

/-! ### Objects -/

theorem property_perm (h : as.toList.Perm bs.toList)
    (hi : ∀ inner type, Nests p path as inner type → NestedAlike c nested as bs inner type)
    (hn : c → ∀ type, p.shape = .list type → Numbered type p.isReference path as)
    {v : Option Value} (ha : (property resolve nested path p as).outcome = .ok v) :
    ∃ w, (property resolve nested path p bs).outcome = .ok w ∧ Alike c v w := by
  match hs : p.shape with
  | .single type =>
    rw [property_single hs] at ha ⊢
    refine valueAt_perm h (fun name ht hr hz => hi path name ⟨hr, hz, .inl ⟨?_, rfl⟩⟩) ha
    rw [hs, ht]
  | .list type =>
    refine list_perm h hs (fun k hk w hw => ?_) (fun hc => hn hc type hs) ha
    refine valueAt_perm h (fun name ht hr hz => ?_) hw
    subst ht
    rw [hr] at hk
    exact hi k name ⟨hr, hz, .inr (.inl ⟨hs, hk⟩)⟩
  | .map key type =>
    refine map_perm h hs (fun k hk text kv ht hd w hw => ?_) ha
    refine valueAt_perm h (fun name htype hr hz => ?_) hw
    subst htype
    rw [hr] at hk ht
    exact hi k name ⟨hr, hz, .inr (.inr ⟨key, text, kv, hs, hk, ht, hd⟩)⟩

/-- The objects have the same names in the same order, with values that are alike. -/
def FieldsAlike (as bs : List (String × Value)) : Prop :=
  List.Forall₂ (fun a b => a.1 = b.1 ∧ Rearranged a.2 b.2) as bs

theorem fieldsAlike_set {name : String} {v w : Value} (hvw : Rearranged v w)
    {as bs : List (String × Value)} (h : FieldsAlike as bs) :
    FieldsAlike (Fields.set name v as) (Fields.set name w bs) := by
  induction h with
  | nil => exact .cons ⟨rfl, hvw⟩ .nil
  | @cons a b as bs hab hrest ih =>
    unfold Fields.set
    rw [hab.1]
    split
    · exact .cons ⟨rfl, hvw⟩ hrest
    · exact .cons hab ih

theorem fieldsAlike_setAll {found found' : List (String × Option Value)}
    (h : List.Forall₂ (fun f g => f.1 = g.1 ∧ Option.Rel Rearranged f.2 g.2) found found') :
    ∀ o o' : Object, FieldsAlike o.fields o'.fields →
      FieldsAlike (setAll o found).fields (setAll o' found').fields := by
  induction h with
  | nil => exact fun _ _ h => h
  | @cons f g found found' hfg _ ih =>
    intro o o' ho
    obtain ⟨a, v?⟩ := f
    obtain ⟨b, w?⟩ := g
    obtain ⟨rfl, hr⟩ := hfg
    cases hr with
    | none => exact ih _ _ ho
    | some hr => exact ih _ _ (fieldsAlike_set hr ho)

theorem rearranged_assemble {name : String} {found found' : List (String × Option Value)}
    (h : List.Forall₂ (fun f g => f.1 = g.1 ∧ Option.Rel Rearranged f.2 g.2) found found') :
    Rearranged (assemble name found).toValue (assemble name found').toValue := by
  have hf : FieldsAlike (assemble name found).fields (assemble name found').fields :=
    fieldsAlike_setAll h _ _ .nil
  rw [Object.toValue, Object.toValue, assemble_type, assemble_type]
  refine .object (Lists.map_eq_map_of_forall₂ hf fun _ _ h => h.1) ?_
  rw [List.forall₂_map_left_iff, List.forall₂_map_right_iff]
  exact hf.imp fun _ _ h => h.2

theorem resolveType_perm (h : as.toList.Perm bs.toList) (r : Registry) (path declared : String) :
    resolveType r path declared as = resolveType r path declared bs :=
  resolveType_congr (Entries.get?_of_perm h _) r path declared

/-- **An object that can be read from a record can be read from every reordering of it.** It is the
same up to the order of maps, if the lists that are visited are numbered. -/
theorem object_perm (c : Prop) (r : Registry) (depth : Nat) :
    ∀ {as bs : Entries} {path declared : String}, as.toList.Perm bs.toList →
      (c → AllNumbered r path declared as) → ∀ {o : Object},
      (object r resolve depth path declared as).outcome = .ok o →
      ∃ o', (object r resolve depth path declared bs).outcome = .ok o' ∧
        (c → Rearranged o.toValue o'.toValue) := by
  induction depth with
  | zero => exact fun _ _ _ h => nomatch h
  | succ depth ih =>
    intro as bs path declared h hn o ho
    obtain ⟨t, found, ht, hf, rfl⟩ := object_eq_ok_iff.1 ho
    obtain ⟨found', hf', hrel⟩ := Lists.exists_forall₂_of_forall₂
      (S := fun (p : Property) (g : String × Option Value) => g.1 = p.name ∧
        (property resolve (object r resolve depth) (Path.join path p.name) p bs).outcome = .ok g.2)
      (T := fun (f g : String × Option Value) => f.1 = g.1 ∧ Alike c f.2 g.2) hf
      fun p hm f hpf => by
        have hp : p ∈ t.properties := (List.filter_append_perm _ _).mem_iff.1 hm
        obtain ⟨w, hw, hc⟩ := property_perm h (fun inner type hnest o ho =>
            ih (Entries.extract_perm h inner) (fun hc at' q es' type' hvisit =>
              hn hc at' q es' type' (.inside ht hp hnest hvisit)) ho)
          (fun hc type hs => hn hc _ _ _ _ (.here ht hp) hs) hpf.2
        exact ⟨(p.name, w), ⟨rfl, hw⟩, hpf.1, hc⟩
    refine ⟨assemble t.name found', object_eq_ok_iff.2
      ⟨t, found', resolveType_perm h r path declared ▸ ht, hf', rfl⟩, fun hc => ?_⟩
    exact rearranged_assemble (hrel.imp fun f g hfg => ⟨hfg.1, hfg.2 hc⟩)

end Perm

end Read

theorem Registry.depthFor_perm {as bs : Entries} (h : as.toList.Perm bs.toList) (r : Registry) :
    r.depthFor as = r.depthFor bs := by
  have : as.longestKey = bs.longestKey := (h.map _).foldl_eq 0
  rw [depthFor, depthFor, this]

/-- **Whether a record can be read, and what is read, does not depend on its order.** -/
theorem read_perm {r : Registry} {resolve : Resolver} {type : String} {as bs : Entries}
    (h : as.toList.Perm bs.toList) :
    ((∃ v, (r.read resolve type as).outcome = .ok v) ↔
        ∃ w, (r.read resolve type bs).outcome = .ok w) ∧
      (AllNumbered r "" type as →
        (∀ v w, (r.read resolve type as).outcome = .ok v →
          (r.read resolve type bs).outcome = .ok w →
          Option.Rel (fun o o' => Rearranged o.toValue o'.toValue) v w) ∧
        ∀ path p es element, Visits r "" type as path p es → p.shape = .list element →
          ∀ nested v, (Read.property resolve nested path p es).outcome = .ok v →
            ∃ keys, keys.Perm (Read.elementKeys element p.isReference es path) ∧
              (keys.map (Read.place · (Path.elementStart path))).Pairwise (· < ·) ∧
              Read.ListAt resolve nested element p.isReference es keys v) := by
  have hread : ∀ (c : Prop) {as bs : Entries}, as.toList.Perm bs.toList →
      (c → AllNumbered r "" type as) → ∀ {v : Option Object},
      (r.read resolve type as).outcome = .ok v → ∃ w, (r.read resolve type bs).outcome = .ok w ∧
        (c → Option.Rel (fun o o' => Rearranged o.toValue o'.toValue) v w) := by
    intro c as bs h hn v hv
    have hsize := Entries.size_perm h
    unfold Registry.read at hv ⊢
    split at hv
    · next hz =>
      rw [if_pos (hsize ▸ hz)]
      cases hv
      exact ⟨none, rfl, fun _ => .none⟩
    · next hz =>
      rw [if_neg (hsize ▸ hz)]
      obtain ⟨o, ho, hov⟩ := Traced.outcome_bind_eq_ok_iff.1 hv
      cases hov
      obtain ⟨o', ho', hc⟩ := Read.object_perm c r _ h hn ho
      rw [Registry.depthFor_perm h] at ho'
      exact ⟨some o', Traced.outcome_bind_eq_ok_iff.2 ⟨o', ho', rfl⟩, fun h => .some (hc h)⟩
  refine ⟨⟨fun ⟨v, hv⟩ => ?_, fun ⟨w, hw⟩ => ?_⟩, fun hn => ⟨fun v w hv hw => ?_,
    fun path p es element hvisit hs nested v hv => Read.list_ascending hs
      (hn path p es element hvisit hs) hv⟩⟩
  · obtain ⟨w, hw, -⟩ := hread False h False.elim hv
    exact ⟨w, hw⟩
  · obtain ⟨v, hv, -⟩ := hread False h.symm False.elim hw
    exact ⟨v, hv⟩
  · obtain ⟨w', hw', hc⟩ := hread True h (fun _ => hn) hv
    cases hw.symm.trans hw'
    exact hc trivial

/-! ## Shelves -/

/-- The labels of a shelf. -/
def labels : Property := { name := "labels", shape := .list (.scalar .text) }

/-- The registry of shelves. -/
def shelves : Registry := ⟨[("Shelf", { name := "Shelf", properties := [labels] })]⟩

/-- A shelf whose labels are stored in the order of their texts. -/
def stored : Entries :=
  Entries.empty.putAll [("labels.[10]", [0x62]), ("labels.[9]", [0x61])]

/-- The labels in the order of their indexes. -/
def reordered : Entries :=
  Entries.empty.putAll [("labels.[9]", [0x61]), ("labels.[10]", [0x62])]

theorem stored_perm_reordered : stored.toList.Perm reordered.toList := by decide +kernel

theorem allNumbered_stored : AllNumbered shelves "" "Shelf" stored := by
  have hlabels : ∀ {path t p}, Read.resolveType shelves path "Shelf" stored = .ok t →
      p ∈ t.properties → p = labels := by
    intro path t p ht hp
    obtain ⟨name, hn⟩ := Read.find?_of_resolveType ht
    have htypes : ∀ e ∈ shelves.types, ∀ p ∈ e.2.properties, p = labels := by decide
    exact htypes _ (Registry.mem_types_of_find? hn) p hp
  intro at' p es' type hv hs
  cases hv with
  | here ht hp =>
    cases hlabels ht hp
    cases hs
    unfold Numbered
    decide +kernel
  | inside ht hp hn _ =>
    cases hlabels ht hp
    obtain ⟨-, -, ⟨h, -⟩ | ⟨h, -⟩ | ⟨_, _, _, h, -⟩⟩ := hn <;> cases h

/-- The labels read the same in both orders. -/
theorem read_perm_shelf :
    ∃ v w, (shelves.read .nothing "Shelf" stored).outcome = .ok v ∧
      (shelves.read .nothing "Shelf" reordered).outcome = .ok w ∧
      Option.Rel (fun o o' => Rearranged o.toValue o'.toValue) v w := by
  obtain ⟨hiff, hsame⟩ := read_perm stored_perm_reordered
  obtain ⟨v, hv⟩ : ∃ v, (shelves.read .nothing "Shelf" stored).outcome = .ok v :=
    Outcome.exists_of_isOk (by decide +kernel)
  obtain ⟨w, hw⟩ := hiff.1 ⟨v, hv⟩
  exact ⟨v, w, hv, hw, (hsame allNumbered_stored).1 v w hv hw⟩

end FlatGraph
