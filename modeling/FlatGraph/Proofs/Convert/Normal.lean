import FlatGraph.Proofs.Convert.Elements
import FlatGraph.Proofs.Convert.Write
import FlatGraph.Proofs.Scalar.Recode

/-!
# Records in normal form

A record is in normal form for a type if nothing in it is but what a write would put there for the
object that it is read as:

* the bytes of each leaf are what is written for the value that they are read as (`Kept`), and so
  are the key texts of maps (`ScalarType.KeptKey`),
* lists are numbered from zero on, without gaps,
* objects inside have a type hint only if it names another type than the declared one, and the root
  has one, and
* there is nothing that no property of the types accounts for.

Not every record that was written is in normal form: a null in a list leaves a gap.
-/

namespace FlatGraph

open FlatGraph.Path (Below Within)

/-! ## Leaves -/

/-- The text is written again for the key that it is read as. -/
def ScalarType.KeptKey (key : ScalarType) (text : String) : Prop := key.Recodes text text

/-- The bytes are written again for the id that they are read as. -/
def ScalarType.KeptId (type : ScalarType) (raw : Bytes) : Prop :=
  ∃ v text, type.decode raw = .ok (some v) ∧ v.toText = .ok text ∧ Utf8.encode text = raw

/-- The bytes at a path are written again for the value that they are read as. -/
def Kept (r : Registry) (resolve : Resolver) (path : String) (type : TypeRef) (reference : Bool)
    (raw : Bytes) : Prop :=
  ∃ v, (Read.leaf resolve path raw type).outcome = .ok (some v) ∧
    Write.Leaves (Write.element r path type reference v) [(path, raw)]

/-- For a scalar, the resolver and the path do not matter. -/
theorem kept_scalar_iff {r : Registry} {resolve : Resolver} {path : String} {type : ScalarType}
    {reference : Bool} {raw : Bytes} :
    Kept r resolve path (.scalar type) reference raw ↔
      ∃ v, type.decode raw = .ok (some v) ∧ type.encode v = .ok raw := by
  refine exists_congr fun v => ?_
  rw [show (Read.leaf resolve path raw (.scalar type)).outcome = Read.decode path raw type from rfl,
    Read.decode_eq_ok_iff]
  refine and_congr_right fun hd => ?_
  rw [Write.leaves_element_scalar_iff (ScalarType.isNull_of_decode hd)]
  simp [Write.encode_eq_ok_iff]

/-! ## Parts of a record -/

/-- The record holds something in the region of the path. -/
def Entries.Occupied (es : Entries) (path : String) : Prop :=
  ∃ k, Within path k ∧ es.get? k ≠ none

/-- The type of the object at a path. -/
def TypeAt (r : Registry) (es : Entries) (path declared : String) (t : EntityType) : Prop :=
  match es.get? (Path.hintOf path) with
  | none => r.find? declared = some t
  | some raw => ∃ name, Utf8.decode raw = .ok name ∧ r.find? name = some t ∧
      r.isAssignable name declared = true

/-- It is the type that a read finds. -/
theorem typeAt_iff {r : Registry} {es bs : Entries} {path declared : String} {t : EntityType}
    (h : bs.get? Path.hint = es.get? (Path.hintOf path)) :
    TypeAt r es path declared t ↔ Read.resolveType r path declared bs = .ok t := by
  unfold TypeAt Read.resolveType
  rw [h]
  cases es.get? (Path.hintOf path) with
  | none => exact Registry.get_eq_ok_iff.symm
  | some raw =>
    dsimp only
    cases Utf8.decode raw with
    | error fault => simp
    | ok name =>
      cases hn : r.find? name with
      | none => simp [hn]
      | some t' => by_cases ha : r.isAssignable name declared = true <;> simp [ha, hn]

theorem TypeAt.unique {r : Registry} {es : Entries} {path declared : String} {t t' : EntityType}
    (h : TypeAt r es path declared t) (h' : TypeAt r es path declared t') : t = t' := by
  unfold TypeAt at h h'
  cases hh : es.get? (Path.hintOf path) with
  | none =>
    rw [hh] at h h'
    exact Option.some.inj (h.symm.trans h')
  | some raw =>
    rw [hh] at h h'
    obtain ⟨name, hd, ht, -⟩ := h
    obtain ⟨name', hd', ht', -⟩ := h'
    cases hd.symm.trans hd'
    exact Option.some.inj (ht.symm.trans ht')

/-- Either there is no type hint, and the type is the declared one, or the type hint names it. -/
theorem TypeAt.cases {r : Registry} {es : Entries} {path declared : String} {t : EntityType}
    (hb : r.Built) (h : TypeAt r es path declared t) :
    r.find? t.name = some t ∧
      (es.get? (Path.hintOf path) = none ∧ t.name = declared ∨
        es.get? (Path.hintOf path) = some (Utf8.encode t.name) ∧
          r.isAssignable t.name declared = true) := by
  unfold TypeAt at h
  cases hh : es.get? (Path.hintOf path) with
  | none =>
    rw [hh] at h
    have hname := (hb.sound h).1
    rw [hname]
    exact ⟨h, .inl ⟨rfl, rfl⟩⟩
  | some raw =>
    rw [hh] at h
    obtain ⟨name, hd, ht, ha⟩ := h
    rw [(hb.sound ht).1]
    exact ⟨ht, .inr ⟨congrArg some (Utf8.decode_eq_ok_iff.1 hd).symm, ha⟩⟩

section

variable (r : Registry) (resolve : Resolver) (es : Entries)

mutual

/-- The value of a declared type at a path is in normal form. -/
inductive NormalValue : TypeRef → Bool → String → Prop
  | leaf {type : TypeRef} {reference : Bool} {path : String} {raw : Bytes}
      (hl : Read.isLeaf type reference = true) (hr : es.get? path = some raw)
      (h : Kept r resolve path type reference raw) : NormalValue type reference path
  | object {declared path : String} {t : EntityType} (ht : TypeAt r es path declared t)
      (hh : es.get? (Path.hintOf path) ≠ some (Utf8.encode declared))
      (ho : ∃ k, Below path k ∧ es.get? k ≠ none)
      (hk : ∀ k, Within path k → es.get? k ≠ none →
        k = Path.hintOf path ∨ ∃ p ∈ t.properties, Within (Path.join path p.name) k)
      (hp : ∀ p ∈ t.properties, es.Occupied (Path.join path p.name) →
        NormalProperty p (Path.join path p.name)) : NormalValue (.entity declared) false path

/-- The value of a property at a path is in normal form. -/
inductive NormalProperty : Property → String → Prop
  | id {p : Property} {path : String} {type : ScalarType} {raw : Bytes} (hid : p.isId = true)
      (hs : p.shape = .single (.scalar type))
      (hk : ∀ k, Within path k → es.get? k ≠ none → k = path)
      (hr : es.get? path = some raw) (h : type.KeptId raw) : NormalProperty p path
  | single {p : Property} {path : String} {type : TypeRef} (hid : p.isId = false)
      (hs : p.shape = .single type)
      (hk : ∀ k, Within path k → es.get? k ≠ none → covers type p.isReference path k = true)
      (h : NormalValue type p.isReference path) : NormalProperty p path
  | list {p : Property} {path : String} {type : TypeRef} {n : Nat} (hid : p.isId = false)
      (hs : p.shape = .list type) (hk : Covered es type p.isReference path (indexTexts n))
      (h : ∀ text ∈ indexTexts n, NormalValue type p.isReference (Path.element path text)) :
      NormalProperty p path
  | map {p : Property} {path : String} {key : ScalarType} {type : TypeRef} {texts : List String}
      (hid : p.isId = false) (hs : p.shape = .map key type)
      (hk : Covered es type p.isReference path texts) (ht : Telling type p.isReference texts)
      (hkept : ∀ text ∈ texts, key.KeptKey text)
      (h : ∀ text ∈ texts, NormalValue type p.isReference (Path.element path text)) :
      NormalProperty p path

end

/-- The record is in normal form for a type. -/
def Normal (type : String) : Prop :=
  ∃ t, TypeAt r es "" type t ∧ (es.get? Path.hint).getD [] = Utf8.encode t.name ∧
    (∀ k, es.get? k ≠ none → k = Path.hint ∨ ∃ p ∈ t.properties, Within p.name k) ∧
    ∀ p ∈ t.properties, es.Occupied p.name → NormalProperty r resolve es p p.name

end

section

variable {r : Registry} {resolve : Resolver} {es : Entries}

theorem normalValue_leaf_iff {type : TypeRef} {reference : Bool} {path : String}
    (hl : Read.isLeaf type reference = true) :
    NormalValue r resolve es type reference path ↔
      ∃ raw, es.get? path = some raw ∧ Kept r resolve path type reference raw := by
  constructor
  · rintro (⟨-, hr, h⟩ | _)
    · exact ⟨_, hr, h⟩
    · cases hl
  · rintro ⟨raw, hr, h⟩
    exact .leaf hl hr h

theorem normalValue_nested_iff {declared path : String} :
    NormalValue r resolve es (.entity declared) false path ↔
      ∃ t, TypeAt r es path declared t ∧
        es.get? (Path.hintOf path) ≠ some (Utf8.encode declared) ∧
        (∃ k, Below path k ∧ es.get? k ≠ none) ∧
        (∀ k, Within path k → es.get? k ≠ none →
          k = Path.hintOf path ∨ ∃ p ∈ t.properties, Within (Path.join path p.name) k) ∧
        ∀ p ∈ t.properties, es.Occupied (Path.join path p.name) →
          NormalProperty r resolve es p (Path.join path p.name) := by
  constructor
  · rintro (⟨hl, -, -⟩ | ⟨ht, hh, ho, hk, hp⟩)
    · cases hl
    · exact ⟨_, ht, hh, ho, hk, hp⟩
  · rintro ⟨t, ht, hh, ho, hk, hp⟩
    exact .object ht hh ho hk hp

theorem normalProperty_id_iff {p : Property} {path : String} {type : ScalarType}
    (hid : p.isId = true) (hs : p.shape = .single (.scalar type)) :
    NormalProperty r resolve es p path ↔ ∃ raw, es.get? path = some raw ∧ type.KeptId raw ∧
      ∀ k, Within path k → es.get? k ≠ none → k = path := by
  constructor
  · rintro (⟨-, hs', hk, hr, h⟩ | ⟨hid', -⟩ | ⟨hid', -⟩ | ⟨hid', -⟩)
    · cases hs.symm.trans hs'
      exact ⟨_, hr, h, hk⟩
    all_goals cases hid.symm.trans hid'
  · rintro ⟨raw, hr, h, hk⟩
    exact .id hid hs hk hr h

theorem normalProperty_single_iff {p : Property} {path : String} {type : TypeRef}
    (hid : p.isId = false) (hs : p.shape = .single type) :
    NormalProperty r resolve es p path ↔
      (∀ k, Within path k → es.get? k ≠ none → covers type p.isReference path k = true) ∧
        NormalValue r resolve es type p.isReference path := by
  constructor
  · rintro (⟨hid', -⟩ | ⟨-, hs', hk, h⟩ | ⟨-, hs', -⟩ | ⟨-, hs', -⟩)
    · cases hid.symm.trans hid'
    · cases hs.symm.trans hs'
      exact ⟨hk, h⟩
    all_goals cases hs.symm.trans hs'
  · rintro ⟨hk, h⟩
    exact .single hid hs hk h

theorem normalProperty_list_iff {p : Property} {path : String} {type : TypeRef}
    (hid : p.isId = false) (hs : p.shape = .list type) :
    NormalProperty r resolve es p path ↔ ∃ n, Covered es type p.isReference path (indexTexts n) ∧
      ∀ text ∈ indexTexts n,
        NormalValue r resolve es type p.isReference (Path.element path text) := by
  constructor
  · rintro (⟨hid', -⟩ | ⟨-, hs', -⟩ | ⟨-, hs', hk, h⟩ | ⟨-, hs', -⟩)
    · cases hid.symm.trans hid'
    · cases hs.symm.trans hs'
    · cases hs.symm.trans hs'
      exact ⟨_, hk, h⟩
    · cases hs.symm.trans hs'
  · rintro ⟨n, hk, h⟩
    exact .list hid hs hk h

theorem normalProperty_map_iff {p : Property} {path : String} {key : ScalarType} {type : TypeRef}
    (hid : p.isId = false) (hs : p.shape = .map key type) :
    NormalProperty r resolve es p path ↔ ∃ texts, Telling type p.isReference texts ∧
      (∀ text ∈ texts, key.KeptKey text) ∧ Covered es type p.isReference path texts ∧
      ∀ text ∈ texts, NormalValue r resolve es type p.isReference (Path.element path text) := by
  constructor
  · rintro (⟨hid', -⟩ | ⟨-, hs', -⟩ | ⟨-, hs', -⟩ | ⟨-, hs', hk, ht, hkept, h⟩)
    · cases hid.symm.trans hid'
    · cases hs.symm.trans hs'
    · cases hs.symm.trans hs'
    · cases hs.symm.trans hs'
      exact ⟨_, ht, hkept, hk, h⟩
  · rintro ⟨texts, ht, hkept, hk, h⟩
    exact .map hid hs hk ht hkept h

/-- A value in normal form is there. -/
theorem NormalValue.exists_covered {type : TypeRef} {reference : Bool} {path : String}
    (h : NormalValue r resolve es type reference path) :
    ∃ k, covers type reference path k = true ∧ es.get? k ≠ none := by
  cases h with
  | leaf hl hr _ => exact ⟨path, (covers_leaf_iff hl).2 rfl, by simp [hr]⟩
  | object _ _ ho _ _ =>
    obtain ⟨k, hb, hne⟩ := ho
    exact ⟨k, (covers_nested_iff rfl).2 hb.within, hne⟩

end

end FlatGraph
