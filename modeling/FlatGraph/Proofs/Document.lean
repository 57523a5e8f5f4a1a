import FlatGraph.Document
import FlatGraph.Proofs.Convert.Canonical
import FlatGraph.Proofs.Model.Registry
import FlatGraph.Proofs.Scalar.Restore
import FlatGraph.Proofs.Sorted
import FlatGraph.Proofs.Text.Order
import FlatGraph.Proofs.Value
import Mathlib.Data.List.Sort

/-!
# Documents of objects

**Theorem (`object_toJson`).** An object that is `Documentable` is written as a document from which
it is read back, with the entries of each map in the order of the bytes of their keys
(`Value.inKeyOrder`), and otherwise equal to what it was: lists keep their order, what is null in
them and that they are empty, and objects keep their types.

The proof follows the derivation that the object is documentable, in whatever role a value stands
and at whatever path (`Returns`). Where the two forms of a value meet,

* a scalar is read from its text, of which there is one for each value (`ScalarType.Spells`),
* the members of a map are its entries in the order of their names, which is that of the bytes
  (`ofEntries_entriesToJson`), and
* the member that a property is read from is the one for its field (`member?_members`).
-/

namespace FlatGraph

/-! ## The order of keys -/

namespace Value

/-- The text of a key. -/
def keyText (k : Value) : String := k.toText.toOption.getD ""

/-- Entries in the order of the bytes of their keys. -/
def byKey (es : List (Value × Value)) : List (Value × Value) :=
  es.insertionSort fun a b => Utf8.encode a.1.keyText ≤ Utf8.encode b.1.keyText

mutual

/-- The value with the entries of each map, at any depth, in the order of the bytes of their
keys. -/
def inKeyOrder : Value → Value
  | .list items => .list (itemsInKeyOrder items)
  | .map entries => .map (byKey (entriesInKeyOrder entries))
  | .object type fields => .object type (fieldsInKeyOrder fields)
  | v => v
termination_by structural v => v

/-- The items, each with its maps in order. -/
def itemsInKeyOrder : List Value → List Value
  | [] => []
  | v :: vs => v.inKeyOrder :: itemsInKeyOrder vs
termination_by structural vs => vs

/-- The entries, the value of each with its maps in order. -/
def entriesInKeyOrder : List (Value × Value) → List (Value × Value)
  | [] => []
  | (k, v) :: es => (k, v.inKeyOrder) :: entriesInKeyOrder es
termination_by structural es => es

/-- The fields, the value of each with its maps in order. -/
def fieldsInKeyOrder : List (String × Value) → List (String × Value)
  | [] => []
  | (name, v) :: fs => (name, v.inKeyOrder) :: fieldsInKeyOrder fs
termination_by structural fs => fs

end

theorem itemsInKeyOrder_eq (items : List Value) :
    itemsInKeyOrder items = items.map inKeyOrder := by
  induction items with
  | nil => rfl
  | cons v vs ih => rw [itemsInKeyOrder, ih, List.map_cons]

theorem entriesInKeyOrder_eq (es : List (Value × Value)) :
    entriesInKeyOrder es = es.map fun e => (e.1, e.2.inKeyOrder) := by
  induction es with
  | nil => rfl
  | cons e es ih => rw [entriesInKeyOrder, ih, List.map_cons]

theorem fieldsInKeyOrder_eq (fs : List (String × Value)) :
    fieldsInKeyOrder fs = fs.map fun f => (f.1, f.2.inKeyOrder) := by
  induction fs with
  | nil => rfl
  | cons f fs ih => rw [fieldsInKeyOrder, ih, List.map_cons]

theorem isNull_inKeyOrder (v : Value) : v.inKeyOrder.isNull = v.isNull := by
  cases v <;> rfl

theorem get?_fieldsInKeyOrder (fs : List (String × Value)) (name : String) :
    Fields.get? (fieldsInKeyOrder fs) name = (Fields.get? fs name).map inKeyOrder := by
  induction fs with
  | nil => rfl
  | cons f fs ih =>
    obtain ⟨a, v⟩ := f
    rw [fieldsInKeyOrder, Fields.get?_cons, Fields.get?_cons, ih, isNull_inKeyOrder]
    split
    · cases v.isNull <;> rfl
    · rfl

/-- The order of entries does not depend on their values. -/
theorem byKey_map (f : Value → Value) (es : List (Value × Value)) :
    byKey (es.map fun e => (e.1, f e.2)) = (byKey es).map fun e => (e.1, f e.2) :=
  (List.map_insertionSort _ _ (fun e : Value × Value => (e.1, f e.2)) es
    fun _ _ _ _ => Iff.rfl).symm

/-- The texts of the keys of sorted entries ascend, if they are distinct. -/
theorem pairwise_byKey {es : List (Value × Value)}
    (h : (es.map fun e => e.1.keyText).Nodup) :
    ((byKey es).map fun e => e.1.keyText).Pairwise (· < ·) := by
  have hperm : (byKey es).Perm es := List.perm_insertionSort _ _
  have hsorted : (byKey es).Pairwise fun a b =>
      Utf8.encode a.1.keyText ≤ Utf8.encode b.1.keyText := List.pairwise_insertionSort _ _
  have hdistinct := List.pairwise_map.1 ((hperm.map fun e => e.1.keyText).nodup_iff.2 h)
  refine List.pairwise_map.2 ((hsorted.and hdistinct).imp fun {a b} ⟨hle, hne⟩ => ?_)
  rcases lt_trichotomy a.1.keyText b.1.keyText with hlt | heq | hgt
  · exact hlt
  · exact absurd heq hne
  · exact absurd (Utf8.encode_lt_iff.2 hgt) hle

end Value

/-! ## Scalars -/

/-- The text spells the value of the type: text as it is, truth values as digits, integers that
the type holds, and variants without white space around them. -/
inductive ScalarType.Spells : ScalarType → Value → String → Prop
  | text {s : String} (hs : s ≠ "") : Spells .text (.text s) s
  | bool (b : Bool) : Spells .bool (.bool b) (if b then "1" else "0")
  | int {w : Width} {n : Int64} (h : w.holds n.toInt = true) :
    Spells (.int w) (.integer n) (.ofList (Number.intText n.toInt))
  | enum {e : EnumType} {s : String} (hs : s ≠ "") (h : e.declares s = true)
      (ht : Text.trim s = s) : Spells (.enum e) (.enum s) s

/-- A member is read as what its text stands for. -/
theorem Document.scalar_of_decode {path : String} {type : ScalarType} {j : Json} {text : String}
    {v : Value} (hj : j.scalarText path = .ok text)
    (h : type.decode (Utf8.encode text) = .ok (some v)) : scalar path type j = .ok v := by
  refine Outcome.bind_eq_ok_iff.2 ⟨text, hj, ?_⟩
  rw [h]
  rfl

/-- Whether the values of a type are told by their texts alone. -/
def ScalarType.IsPlain : ScalarType → Prop
  | .text | .bool | .int _ | .enum _ => True
  | _ => False

namespace ScalarType.Spells

variable {type : ScalarType} {v : Value} {text : String}

theorem toText (h : type.Spells v text) : v.toText = .ok text := by
  cases h <;> rfl

theorem keyText (h : type.Spells v text) : v.keyText = text := by
  rw [Value.keyText, h.toText]
  rfl

theorem ne_empty (h : type.Spells v text) : text ≠ "" := by
  cases h with
  | text hs => exact hs
  | bool b => cases b <;> decide
  | int h =>
    intro hempty
    have hnil := congrArg String.toList hempty
    rw [String.toList_ofList] at hnil
    unfold Number.intText at hnil
    split at hnil
    · cases hnil
    · exact (Number.isDigits_natText _).1 hnil
  | enum hs => exact hs

/-- The value is the one that its text stands for. -/
theorem decode (h : type.Spells v text) : type.decode (Utf8.encode text) = .ok (some v) := by
  have hne := mt Utf8.encode_eq_nil_iff.1 h.ne_empty
  cases h with
  | text => exact (ReadAs.text _).decode hne
  | bool b => exact (ReadAs.bool b).decode hne
  | int h => exact (ReadAs.int h).decode hne
  | enum _ h ht => exact (ReadAs.enum h ht).decode hne

/-- **What is spelled is what the type reads its own text as.** -/
theorem iff_decode : type.Spells v text ↔
    type.IsPlain ∧ v.toText = .ok text ∧ type.decode (Utf8.encode text) = .ok (some v) := by
  constructor
  · intro h
    exact ⟨by cases h <;> trivial, h.toText, h.decode⟩
  · rintro ⟨hplain, ht, hd⟩
    obtain ⟨hne, hv⟩ := decode_encode_eq_some_iff.1 hd
    cases type with
    | text =>
      cases hv
      exact .text hne
    | bool =>
      cases hv
      generalize isTrueText text = b at ht
      cases ht
      exact .bool b
    | int w =>
      rw [decodeText] at hv
      split at hv
      · next n hn =>
        cases hv
        have hmem := Number.mem_of_readInt (zero_mem w) hn
        have hholds : w.holds (Int64.ofInt n).toInt = true := by
          rw [toInt_ofInt_of_mem hmem]
          exact holds_iff.2 hmem
        generalize Int64.ofInt n = k at ht hholds
        cases ht
        exact .int hholds
      · cases hv
    | enum e =>
      rw [decodeText] at hv
      split at hv
      · next hdeclares =>
        cases hv
        have htrim : Text.trim text = text := Except.ok.inj ht
        rw [htrim] at hdeclares ⊢
        exact .enum hne hdeclares htrim
      · cases hv
    | float32 | float64 | date | bytes => cases hplain

/-- As a key, the value is read back from its text. -/
theorem scalar_string (h : type.Spells v text) (path : String) :
    Document.scalar path type (.string text) = .ok v :=
  Document.scalar_of_decode rfl h.decode

/-- As a leaf, the value is read back from its JSON form. -/
theorem scalar_toJson (h : type.Spells v text) (path : String) :
    Document.scalar path type v.toJson = .ok v := by
  have hdecode := h.decode
  cases h with
  | text | int | enum => exact Document.scalar_of_decode rfl hdecode
  | bool b =>
    refine Document.scalar_of_decode rfl (decode_encode_eq_some_iff.2 ⟨?_, ?_⟩)
    · cases b <;> decide
    · cases b <;> rfl

theorem isNull_toJson (h : type.Spells v text) : v.toJson.isNull = false := by
  cases h <;> rfl

theorem equal_self (h : type.Spells v text) : v.equal v = true := by
  cases h <;> simp [Value.equal]

theorem equal_inKeyOrder (h : type.Spells v text) : v.inKeyOrder.equal v = true := by
  have hself := h.equal_self
  cases h <;> exact hself

end ScalarType.Spells

/-! ## Members -/

theorem Value.itemsToJson_eq (items : List Value) : itemsToJson items = items.map toJson := by
  induction items with
  | nil => rfl
  | cons v vs ih => rw [itemsToJson, ih, List.map_cons]

theorem Value.entriesToJson_eq (es : List (Value × Value)) :
    entriesToJson es = es.map fun e => (e.1.keyText, e.2.toJson) := by
  induction es with
  | nil => rfl
  | cons e es ih => rw [entriesToJson, ih, List.map_cons, keyText]

theorem Value.fieldsToJson_eq (fs : List (String × Value)) :
    fieldsToJson fs = (fs.filter (!·.2.isNull)).map fun f => (f.1, f.2.toJson) := by
  induction fs with
  | nil => rfl
  | cons f fs ih =>
    obtain ⟨name, v⟩ := f
    rw [fieldsToJson, ih, List.filter_cons]
    cases v.isNull <;> rfl

/-- The members of a map are its entries in the order of their keys. -/
theorem Value.ofEntries_entriesToJson {es : List (Value × Value)}
    (h : (es.map fun e => e.1.keyText).Nodup) :
    Sorted.ofEntries (entriesToJson es) = (byKey es).map fun e => (e.1.keyText, e.2.toJson) := by
  rw [entriesToJson_eq]
  refine Sorted.ofEntries_eq_of_perm ((List.perm_insertionSort _ _).map _) ?_
  rw [List.map_map]
  exact pairwise_byKey h

/-! ## Documentable values -/

namespace Registry

/-- The properties of each type have names of their own, and none of them that of the member that
names the type. -/
structure OwnNames (r : Registry) : Prop where
  ne_hint : ∀ name t, r.find? name = some t → ∀ p ∈ t.properties, p.name ≠ Path.hint
  distinct : ∀ name t, r.find? name = some t → (t.properties.map (·.name)).Nodup

end Registry

/-- A value that can be given in a document where it stands: scalars are spelled by their texts,
objects have no fields but properties of their types, and stand where these are declared or
inherited, and the keys of maps have texts of their own. -/
inductive Documentable (r : Registry) : Role → Value → Prop
  | null {type : TypeRef} : Documentable r (.element type) .null
  | scalar {type : ScalarType} {v : Value} {text : String} (h : type.Spells v text) :
      Documentable r (.element (.scalar type)) v
  | object {declared type : String} {fields : List (String × Value)} {t : EntityType}
      (ht : r.find? type = some t) (ha : r.isAssignable type declared = true)
      (hd : (fields.map Prod.fst).Nodup)
      (hn : ∀ name v, Fields.get? fields name = some v → ∃ p ∈ t.properties, p.name = name)
      (hp : ∀ p ∈ t.properties, ∀ v, Fields.get? fields p.name = some v →
        Documentable r (.property p) v) :
      Documentable r (.element (.entity declared)) (.object type fields)
  | single {p : Property} {type : TypeRef} {v : Value} (hs : p.shape = .single type)
      (h : Documentable r (.element type) v) : Documentable r (.property p) v
  | list {p : Property} {type : TypeRef} {items : List Value} (hs : p.shape = .list type)
      (h : ∀ v ∈ items, Documentable r (.element type) v) :
      Documentable r (.property p) (.list items)
  | map {p : Property} {key : ScalarType} {type : TypeRef} {entries : List (Value × Value)}
      (hs : p.shape = .map key type) (hk : ∀ e ∈ entries, ∃ text, key.Spells e.1 text)
      (hd : (entries.map fun e => e.1.keyText).Nodup)
      (h : ∀ e ∈ entries, Documentable r (.element type) e.2) :
      Documentable r (.property p) (.map entries)

/-- The value comes back from its JSON form, with its maps in order, where it stands. -/
def Returns (r : Registry) (v : Value) : Role → Prop
  | .element type => ∃ w, v.inKeyOrder.equal w = true ∧
      ∀ path reference, Document.element r path type reference v.toJson = .ok w
  | .property p => v.isNull = false → ∃ w, v.inKeyOrder.equal w = true ∧
      ∀ path, Document.property r path p v.toJson = .ok w

namespace Documentable

variable {r : Registry} {role : Role} {v : Value}

/-- Only what is null is null in a document. -/
theorem isNull_toJson (h : Documentable r role v) (hv : v.isNull = false) :
    v.toJson.isNull = false := by
  induction h with
  | null => cases hv
  | scalar h => exact h.isNull_toJson
  | object | list | map => rfl
  | single _ _ ih => exact ih hv

end Documentable

namespace Document

variable {r : Registry} {path : String} {type : TypeRef} {reference : Bool}

/-! ## Reading -/

theorem element_null : element r path type reference .null = .ok .null := by
  rw [element.eq_def]
  rfl

theorem element_scalar {type : ScalarType} {j : Json} (hj : j.isNull = false) :
    element r path (.scalar type) reference j = scalar path type j := by
  rw [element.eq_def]
  cases j with
  | null => cases hj
  | _ => rfl

theorem element_object {declared : String} {members : List (String × Json)} :
    element r path (.entity declared) reference (.object members) =
      Object.toValue <$> objectAt r path declared (.object members) := by
  rw [element.eq_def]
  dsimp only
  split
  · next h => cases h
  · rfl

theorem elements_eq_ok {items : List Json} {ws : List Value}
    (h : List.Forall₂ (fun j w => ∀ path, element r path type reference j = .ok w) items ws)
    (base : String) (index : Nat) : elements r base type reference index items = .ok ws := by
  induction h generalizing index with
  | nil =>
    rw [elements]
    rfl
  | cons hj _ ih =>
    rw [elements, hj, ih]
    rfl

theorem entries_eq_ok {key : ScalarType} {members : List (String × Json)}
    {ws : List (Value × Value)}
    (h : List.Forall₂ (fun m w => ∀ path, scalar path key (.string m.1) = .ok w.1 ∧
      element r path type reference m.2 = .ok w.2) members ws) (base : String) :
    entries r base key type reference members = .ok ws := by
  induction h with
  | nil =>
    rw [entries]
    rfl
  | @cons m w _ _ hm _ ih =>
    obtain ⟨name, j⟩ := m
    rw [entries, (hm _).1, (hm _).2, ih]
    rfl

theorem properties_eq_ok {members : List (String × Json)} {ps : List Property}
    {found : Property → Option Value}
    (h : ∀ p ∈ ps, Option.Rel (fun j w => ∀ path, property r path p j = .ok w)
      (member? members p.name) (found p)) (base : String) :
    properties r base members ps = .ok (ps.filterMap fun p => (found p).map (p.name, ·)) := by
  induction ps with
  | nil =>
    rw [properties]
    rfl
  | cons p ps ih =>
    have hp := h p List.mem_cons_self
    have hrest := ih fun q hq => h q (List.mem_cons_of_mem _ hq)
    rw [properties.eq_def]
    dsimp only
    rw [hrest, List.filterMap_cons]
    split
    · next j hj =>
      rw [hj] at hp
      cases hw : found p with
      | none =>
        rw [hw] at hp
        cases hp
      | some w =>
        rw [hw, Option.rel_some_some] at hp
        rw [hp]
        rfl
    · next hj =>
      rw [hj] at hp
      cases hw : found p with
      | none => rfl
      | some w =>
        rw [hw] at hp
        cases hp

/-- The object that has the values that were found, one set after another. -/
theorem foldl_set_filterMap {ps : List Property} {found : Property → Option Value} (o : Object) :
    (ps.filterMap fun p => (found p).map (p.name, ·)).foldl (fun o f => o.set f.1 f.2) o =
      Read.setAll o (ps.map fun p => (p.name, found p)) := by
  induction ps generalizing o with
  | nil => rfl
  | cons p ps ih =>
    rw [List.filterMap_cons, List.map_cons]
    cases hp : found p with
    | none =>
      rw [Option.map_none, ih]
      simp [Read.setAll]
    | some w => 
      rw [Option.map_some, List.foldl_cons, ih]
      simp [Read.setAll]

theorem objectAt_eq_ok {declared type : String} {members : List (String × Json)} {t : EntityType}
    {found : Property → Option Value} (htype : typeName r path declared members = .ok type)
    (ht : r.find? type = some t)
    (h : ∀ p ∈ t.properties, Option.Rel (fun j w => ∀ path, property r path p j = .ok w)
      (member? members p.name) (found p)) :
    objectAt r path declared (.object members) =
      .ok (Read.assemble type (t.properties.map fun p => (p.name, found p))) := by
  rw [objectAt, Outcome.bind_eq_ok_iff]
  refine ⟨type, htype, ?_⟩
  rw [Outcome.bind_eq_ok_iff]
  refine ⟨t, Registry.get_eq_ok_iff.2 ht, ?_⟩
  rw [properties_eq_ok h]
  exact congrArg Except.ok (foldl_set_filterMap _)

end Document

/-- The members of an object: its type, and the fields that hold a value. -/
theorem Value.lookup_members {type : String} {fields : List (String × Value)}
    (hd : (fields.map Prod.fst).Nodup) (hn : Fields.get? fields Path.hint = none) {name : String}
    {j : Json} :
    (Sorted.ofEntries ((Path.hint, .string type) :: fieldsToJson fields)).lookup name = some j ↔
      name = Path.hint ∧ j = .string type ∨
        ∃ v, Fields.get? fields name = some v ∧ v.toJson = j := by
  have hmem : ∀ name j, (name, j) ∈ fieldsToJson fields ↔
      ∃ v, Fields.get? fields name = some v ∧ v.toJson = j := by
    intro name j
    rw [fieldsToJson_eq]
    simp only [List.mem_map, List.mem_filter, Prod.mk.injEq, Fields.get?_eq_some_iff hd,
      Bool.not_eq_true', Prod.exists]
    constructor
    · rintro ⟨name', v, hf, rfl, rfl⟩
      exact ⟨v, hf, rfl⟩
    · rintro ⟨v, hf, rfl⟩
      exact ⟨name, v, hf, rfl, rfl⟩
  rw [Sorted.lookup_ofEntries_eq_some_iff, List.mem_cons, hmem, Prod.mk.injEq]
  -- no member is given twice
  intro name j j' hj hj'
  rw [List.mem_cons, hmem, Prod.mk.injEq] at hj hj'
  obtain ⟨rfl, rfl⟩ | ⟨v, hv, rfl⟩ := hj
  · obtain ⟨-, rfl⟩ | ⟨v, hv, -⟩ := hj'
    · rfl
    · cases hn.symm.trans hv
  · obtain ⟨rfl, -⟩ | ⟨v', hv', rfl⟩ := hj'
    · cases hn.symm.trans hv
    · cases hv.symm.trans hv'
      rfl

/-- An object is equal to one of its type that has, for each property, what its field comes back
as. -/
theorem Value.equal_assemble_inKeyOrder {type : String} {fields : List (String × Value)}
    {ps : List Property} {found : Property → Option Value} (hd : (fields.map Prod.fst).Nodup)
    (hps : (ps.map (·.name)).Nodup)
    (hn : ∀ name v, Fields.get? fields name = some v → ∃ p ∈ ps, p.name = name)
    (h : ∀ p ∈ ps, Option.Rel (fun v w => v.inKeyOrder.equal w = true)
      (Fields.get? fields p.name) (found p)) :
    (Value.object type (fieldsInKeyOrder fields)).equal
      (Read.assemble type (ps.map fun p => (p.name, found p))).toValue = true := by
  refine equal_assemble (by rwa [fieldsInKeyOrder_eq, List.map_map]) (by rwa [List.map_map])
    (fun name v hv => ?_) fun f hf => ?_
  · rw [get?_fieldsInKeyOrder] at hv
    obtain ⟨v', hv', -⟩ := Option.map_eq_some_iff.1 hv
    obtain ⟨p, hp, rfl⟩ := hn name v' hv'
    rw [List.map_map]
    exact List.mem_map_of_mem (f := Property.name) hp
  · obtain ⟨p, hp, rfl⟩ := List.mem_map.1 hf
    have hrel := h p hp
    rw [get?_fieldsInKeyOrder]
    generalize Fields.get? fields p.name = v? at hrel
    generalize found p = w? at hrel
    cases hrel with
    | some hequal => exact .some hequal
    | none => exact .none

theorem Document.member?_members {type : String} {fields : List (String × Value)}
    (hd : (fields.map Prod.fst).Nodup) (hn : Fields.get? fields Path.hint = none) {name : String}
    (hname : name ≠ Path.hint)
    (hv : ∀ v, Fields.get? fields name = some v → v.toJson.isNull = false) :
    member? (Sorted.ofEntries ((Path.hint, .string type) :: Value.fieldsToJson fields)) name =
      (Fields.get? fields name).map Value.toJson := by
  ext j
  rw [member?, Option.filter_eq_some_iff, Value.lookup_members hd hn,
    or_iff_right fun h => hname h.1, Option.map_eq_some_iff]
  refine and_iff_left_of_imp ?_
  rintro ⟨v, hget, rfl⟩
  rw [hv v hget]
  rfl

namespace Documentable

variable {r : Registry}

theorem returns_object (hr : r.OwnNames) {declared type : String}
    {fields : List (String × Value)} {t : EntityType} (ht : r.find? type = some t)
    (ha : r.isAssignable type declared = true) (hd : (fields.map Prod.fst).Nodup)
    (hn : ∀ name v, Fields.get? fields name = some v → ∃ p ∈ t.properties, p.name = name)
    (hp : ∀ p ∈ t.properties, ∀ v, Fields.get? fields p.name = some v →
      v.toJson.isNull = false ∧ Returns r v (.property p)) :
    Returns r (.object type fields) (.element (.entity declared)) := by
  have hhint : Fields.get? fields Path.hint = none := by
    rw [Option.eq_none_iff_forall_not_mem]
    intro v hv
    obtain ⟨p, hp, hname⟩ := hn _ v hv
    exact hr.ne_hint type t ht p hp hname
  -- for each property, what is read is what its field comes back as
  have hfound : ∀ p ∈ t.properties, ∃ o : Option Value,
      Option.Rel (fun v w => v.inKeyOrder.equal w = true) (Fields.get? fields p.name) o ∧
      Option.Rel (fun j w => ∀ path, Document.property r path p j = .ok w)
        (Document.member? (Sorted.ofEntries ((Path.hint, .string type) ::
          Value.fieldsToJson fields)) p.name) o := by
    intro p hpt
    rw [Document.member?_members hd hhint (hr.ne_hint type t ht p hpt) fun v hv =>
      (hp p hpt v hv).1]
    cases hv : Fields.get? fields p.name with
    | none => exact ⟨none, .none, .none⟩
    | some v =>
      obtain ⟨w, hequal, hread⟩ := (hp p hpt v hv).2 (Fields.isNull_of_get? hv)
      exact ⟨some w, .some hequal, .some hread⟩
  choose! found hequal hread using hfound
  have htype : ∀ path, Document.typeName r path declared
      (Sorted.ofEntries ((Path.hint, .string type) :: Value.fieldsToJson fields)) = .ok type := by
    intro path
    rw [Document.typeName, (Value.lookup_members hd hhint).2 (.inl ⟨rfl, rfl⟩)]
    exact if_pos ha
  refine ⟨(Read.assemble type (t.properties.map fun p => (p.name, found p))).toValue, ?_,
    fun path reference => ?_⟩
  · exact Value.equal_assemble_inKeyOrder hd (hr.distinct type t ht) hn hequal
  · rw [Value.toJson, Json.ofMembers, Document.element_object,
      Document.objectAt_eq_ok (htype path) ht hread]
    rfl

theorem returns_list {p : Property} {type : TypeRef} {items : List Value}
    (hs : p.shape = .list type) (h : ∀ v ∈ items, Returns r v (.element type)) :
    Returns r (.list items) (.property p) := by
  intro _
  obtain ⟨ws, hws⟩ := Lists.exists_forall₂ h
  refine ⟨.list ws, ?_, fun path => ?_⟩
  · rw [Value.inKeyOrder, Value.itemsInKeyOrder_eq, Value.equal, Value.equalItems_iff,
      List.forall₂_map_left_iff]
    exact hws.imp fun _ _ hw => hw.1
  · have hread := Document.elements_eq_ok (List.forall₂_map_left_iff.2
      (hws.imp fun _ _ hw path => hw.2 path p.isReference)) path 0
    rw [Value.toJson, Value.itemsToJson_eq, Document.property, hs]
    dsimp only
    rw [hread]
    rfl

theorem returns_map {p : Property} {key : ScalarType} {type : TypeRef}
    {entries : List (Value × Value)} (hs : p.shape = .map key type)
    (hk : ∀ e ∈ entries, ∃ text, key.Spells e.1 text)
    (hd : (entries.map fun e => e.1.keyText).Nodup)
    (h : ∀ e ∈ entries, Returns r e.2 (.element type)) :
    Returns r (.map entries) (.property p) := by
  intro _
  have hperm : (Value.byKey entries).Perm entries := List.perm_insertionSort _ _
  -- the entries in the order of their keys, and what they come back as
  have hentry : ∀ e ∈ Value.byKey entries, ∃ w : Value × Value,
      (e.1.equal w.1 = true ∧ e.2.inKeyOrder.equal w.2 = true) ∧
      ∀ path, Document.scalar path key (.string e.1.keyText) = .ok w.1 ∧
        Document.element r path type p.isReference e.2.toJson = .ok w.2 := by
    intro e he
    obtain ⟨text, hspells⟩ := hk e (hperm.mem_iff.1 he)
    obtain ⟨w, hequal, hread⟩ := h e (hperm.mem_iff.1 he)
    refine ⟨(e.1, w), ⟨hspells.equal_self, hequal⟩, fun path => ⟨?_, hread path _⟩⟩
    rw [hspells.keyText]
    exact hspells.scalar_string path
  obtain ⟨ws, hws⟩ := Lists.exists_forall₂ hentry
  refine ⟨.map ws, ?_, fun path => ?_⟩
  · rw [Value.inKeyOrder, Value.entriesInKeyOrder_eq, Value.byKey_map, Value.equal,
      Value.equalEntries_iff, List.forall₂_map_left_iff]
    exact hws.imp fun _ _ hw => hw.1
  · have hmembers : List.Forall₂ (fun m w => ∀ path,
        Document.scalar path key (.string m.1) = .ok w.1 ∧
        Document.element r path type p.isReference m.2 = .ok w.2)
        ((Value.byKey entries).map fun e => (e.1.keyText, e.2.toJson)) ws :=
      List.forall₂_map_left_iff.2 (hws.imp fun _ _ hw => hw.2)
    have hread := Document.entries_eq_ok hmembers path
    rw [Value.toJson, Json.ofMembers, Value.ofEntries_entriesToJson hd, Document.property, hs]
    dsimp only
    rw [hread]
    rfl

/-- What is documentable comes back. -/
theorem returns (hr : r.OwnNames) {role : Role} {v : Value} (h : Documentable r role v) :
    Returns r v role := by
  induction h with
  | null => exact ⟨.null, rfl, fun _ _ => Document.element_null⟩
  | scalar h =>
    refine ⟨_, h.equal_inKeyOrder, fun path reference => ?_⟩
    rw [Document.element_scalar h.isNull_toJson, h.scalar_toJson]
  | object ht ha hd hn hp ih =>
    exact returns_object hr ht ha hd hn fun p hpt v hv =>
      ⟨(hp p hpt v hv).isNull_toJson (Fields.isNull_of_get? hv), ih p hpt v hv⟩
  | single hs _ ih =>
    intro _
    obtain ⟨w, hequal, hread⟩ := ih
    refine ⟨w, hequal, fun path => ?_⟩
    rw [Document.property, hs]
    exact hread path _
  | list hs _ ih => exact returns_list hs ih
  | map hs hk hd _ ih => exact returns_map hs hk hd ih

end Documentable

/-- **An object that can be given in a document is read back from the one that it is written as**,
with the entries of each map in the order of the bytes of their keys. -/
theorem object_toJson {r : Registry} (hr : r.OwnNames) {declared : String} {o : Object}
    (h : Documentable r (.element (.entity declared)) o.toValue) :
    ∃ o', Document.object r declared o.toValue.toJson = .ok o' ∧
      o.toValue.inKeyOrder.equal o'.toValue = true := by
  obtain ⟨w, hequal, hread⟩ := h.returns hr
  have hw := hread "" false
  rw [Object.toValue, Value.toJson, Json.ofMembers, Document.element_object,
    Outcome.map_eq_ok_iff] at hw
  obtain ⟨o', ho', rfl⟩ := hw
  exact ⟨o', ho', hequal⟩

/-! ## Keepers -/

namespace Keepers

/-- The name of an animal. -/
def name : Property := { name := "name", shape := .single (.scalar .text) }

/-- What a dog has learnt. -/
def tricks : Property := { name := "tricks", shape := .list (.scalar .text) }

/-- The animals of a keeper, by the numbers of their cages. -/
def cages : Property := { name := "cages", shape := .map (.int .w8) (.entity "Pet") }

/-- The animal that a keeper likes best. -/
def best : Property := { name := "best", shape := .single (.entity "Pet"), isReference := true }

def pet : EntityType := { name := "Pet", properties := [name] }

/-- Dogs are animals that can learn tricks. -/
def dog : EntityType :=
  { name := "Dog", declaredKeyspace := some "Pet", parent := some "Pet",
    properties := [name, tricks] }

def keeper : EntityType := { name := "Keeper", properties := [cages, best] }

/-- The registry of keepers and their animals. -/
def registry : Registry := ⟨[("Dog", dog), ("Keeper", keeper), ("Pet", pet)]⟩

/-- A dog that has learnt nothing in the second lesson. -/
def rex : Value :=
  .object "Dog" [("tricks", .list [.text "sit", .null, .text "roll"]), ("name", .text "rex")]

def kit : Value := .object "Pet" [("name", .text "kit")]

/-- A keeper of two animals. -/
def sam : Object :=
  ⟨"Keeper", [("best", rex), ("cages", .map [(.integer 7, rex), (.integer 12, kit)])]⟩

theorem ownNames : registry.OwnNames := by
  have htypes : ∀ e ∈ registry.types, (∀ p ∈ e.2.properties, p.name ≠ Path.hint) ∧
      (e.2.properties.map (·.name)).Nodup := by decide
  exact ⟨fun _ _ ht => (htypes _ (Registry.mem_types_of_find? ht)).1,
    fun _ _ ht => (htypes _ (Registry.mem_types_of_find? ht)).2⟩

theorem exists_property {fields : List (String × Value)} {ps : List Property}
    (hd : (fields.map Prod.fst).Nodup) (h : ∀ f ∈ fields, ∃ p ∈ ps, p.name = f.1) (field : String)
    (v : Value) (hv : Fields.get? fields field = some v) : ∃ p ∈ ps, p.name = field :=
  h _ ((Fields.get?_eq_some_iff hd).1 hv).1

theorem documentable_rex : Documentable registry (.element (.entity "Pet")) rex := by
  refine .object (t := dog) rfl (by decide +kernel) (by decide)
    (exists_property (by decide) (by decide)) fun p hp v hv => ?_
  simp only [dog, List.mem_cons, List.not_mem_nil, or_false] at hp
  rcases hp with rfl | rfl <;> cases hv
  · exact .single rfl (.scalar (.text (by decide)))
  · refine .list rfl ?_
    simp only [List.forall_mem_cons, List.not_mem_nil, false_imp_iff, implies_true, and_true]
    exact ⟨.scalar (.text (by decide)), .null, .scalar (.text (by decide))⟩

theorem documentable_kit : Documentable registry (.element (.entity "Pet")) kit := by
  refine .object (t := pet) rfl (by decide +kernel) (by decide)
    (exists_property (by decide) (by decide)) fun p hp v hv => ?_
  simp only [pet, List.mem_singleton] at hp
  cases hp
  cases hv
  exact .single rfl (.scalar (.text (by decide)))

theorem documentable_sam : Documentable registry (.element (.entity "Keeper")) sam.toValue := by
  refine .object (t := keeper) rfl (by decide +kernel) (by decide)
    (exists_property (by decide) (by decide)) fun p hp v hv => ?_
  simp only [keeper, List.mem_cons, List.not_mem_nil, or_false] at hp
  rcases hp with rfl | rfl <;> cases hv
  · refine .map rfl ?_ (by decide) ?_
    · simp only [List.forall_mem_cons, List.not_mem_nil, false_imp_iff, implies_true, and_true]
      exact ⟨⟨_, .int (by decide)⟩, _, .int (by decide)⟩
    · simp only [List.forall_mem_cons, List.not_mem_nil, false_imp_iff, implies_true, and_true]
      exact ⟨documentable_rex, documentable_kit⟩
  · exact .single rfl documentable_rex

/-- The keeper comes back with the twelfth cage before the seventh. -/
theorem object_toJson_sam :
    registry.OwnNames ∧ Documentable registry (.element (.entity "Keeper")) sam.toValue ∧
    sam.toValue.inKeyOrder =
      .object "Keeper" [("best", rex), ("cages", .map [(.integer 12, kit), (.integer 7, rex)])] ∧
    ∃ o', Document.object registry "Keeper" sam.toValue.toJson = .ok o' ∧
      sam.toValue.inKeyOrder.equal o'.toValue = true :=
  ⟨ownNames, documentable_sam, rfl, object_toJson ownNames documentable_sam⟩

end Keepers

end FlatGraph
