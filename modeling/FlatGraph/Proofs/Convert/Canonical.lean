import FlatGraph.Convert.Write
import FlatGraph.Proofs.Convert.Read

/-!
# Canonical objects

An object is canonical if nothing of it gets lost on the way into a record and back: each field
names a property of its type, each scalar is read back as it was, lists and maps hold something,
and so does each object inside, unless its type has to be named anyhow.

What the keys of a map have to satisfy is left open (`KeyRule`). It is not enough that each key is
read back (`KeysKept`): their texts also have to tell the entries apart (`KeysTold`).
-/

namespace FlatGraph

/-! ## Scalars -/

/-- What a scalar is written as is read back as an equal scalar. -/
def ScalarType.Keeps (type : ScalarType) (v : Value) : Prop :=
  ∃ bs w, type.encode v = .ok bs ∧ type.decode bs = .ok (some w) ∧ v.equal w = true

/-- The text of a key is read back as an equal key. -/
def ScalarType.KeepsKey (type : ScalarType) (k : Value) : Prop :=
  ∃ text w, type.keyText k = .ok text ∧ type.decode (Utf8.encode text) = .ok (some w) ∧
    k.equal w = true

/-- The text of an id is read back as an equal value. -/
def ScalarType.KeepsId (type : ScalarType) (v : Value) : Prop :=
  v.isScalar = true ∧ ∃ text w, v.toText = .ok text ∧
    type.decode (Utf8.encode text) = .ok (some w) ∧ v.equal w = true

/-! ## Keys of maps -/

/-- What keys of maps have to satisfy, by their type and that of the values. -/
abbrev KeyRule := ScalarType → TypeRef → List Value → Prop

/-- The text of each key is read back as an equal key. -/
def KeysKept : KeyRule := fun key _ ks => ∀ k ∈ ks, key.KeepsKey k

/-- The keys are kept, and their texts tell the entries apart. -/
def KeysTold : KeyRule := fun key type ks =>
  KeysKept key type ks ∧ (ks.map key.keyText).Nodup ∧
    (Read.isLeaf type false = false → ∀ k ∈ ks, ∀ text, key.keyText k = .ok text →
      ']' ∉ text.toList)

/-! ## Values and objects -/

/-- Where a value stands: as a value of a declared type, or as that of a property. -/
inductive Role where
  | element (type : TypeRef)
  | property (p : Property)

/-- A value that can be written and read back where it stands, without references, if the keys of
its maps keep the rule. -/
inductive Canonical (r : Registry) (rule : KeyRule) : Role → Value → Prop
  | scalar {type : ScalarType} {v : Value} (h : type.Keeps v) :
      Canonical r rule (.element (.scalar type)) v
  | object {declared type : String} {fields : List (String × Value)} {t : EntityType}
      (ht : r.find? type = some t)
      (ha : type = declared ∨ r.isAssignable type declared = true)
      (hc : type ≠ declared ∨ Fields.count fields ≠ 0)
      (hd : (fields.map Prod.fst).Nodup)
      (hn : ∀ name v, Fields.get? fields name = some v → ∃ p ∈ t.properties, p.name = name)
      (hp : ∀ p ∈ t.properties, ∀ v, Fields.get? fields p.name = some v →
        Canonical r rule (.property p) v) :
      Canonical r rule (.element (.entity declared)) (.object type fields)
  | id {p : Property} {type : ScalarType} {v : Value} (hid : p.isId = true)
      (hr : p.isReference = false) (hs : p.shape = .single (.scalar type)) (h : type.KeepsId v) :
      Canonical r rule (.property p) v
  | single {p : Property} {type : TypeRef} {v : Value} (hid : p.isId = false)
      (hr : p.isReference = false) (hs : p.shape = .single type)
      (h : Canonical r rule (.element type) v) : Canonical r rule (.property p) v
  | list {p : Property} {type : TypeRef} {items : List Value} (hid : p.isId = false)
      (hr : p.isReference = false) (hs : p.shape = .list type) (hne : items ≠ [])
      (h : ∀ v ∈ items, Canonical r rule (.element type) v) :
      Canonical r rule (.property p) (.list items)
  | map {p : Property} {key : ScalarType} {type : TypeRef} {entries : List (Value × Value)}
      (hid : p.isId = false) (hr : p.isReference = false) (hs : p.shape = .map key type)
      (hne : entries ≠ []) (hk : rule key type (entries.map Prod.fst))
      (h : ∀ e ∈ entries, Canonical r rule (.element type) e.2) :
      Canonical r rule (.property p) (.map entries)

/-- An object of a type that can be written and read back, without references, if the keys of its
maps keep the rule. -/
structure Object.Canonical (r : Registry) (rule : KeyRule) (t : EntityType) (o : Object) :
    Prop where
  type : r.find? o.type = some t
  distinct : (o.fields.map Prod.fst).Nodup
  named : ∀ name v, o.get? name = some v → ∃ p ∈ t.properties, p.name = name
  field : ∀ p ∈ t.properties, ∀ v, o.get? p.name = some v →
    FlatGraph.Canonical r rule (.property p) v

end FlatGraph
