import FlatGraph.Proofs.Convert.Canonical
import FlatGraph.Proofs.Convert.Write
import Mathlib.Logic.Relation
import Mathlib.Order.WellFounded

/-!
# The parts of a value

A value that is written has parts that are written with it: the fields of an object, the items of
a list, the keys and the values of a map. Each part stands in a role of its own. An id and a
reference are written as a whole, and have no parts.

* `PartOf` is one step from a part to what it is part of, `Occurs` any number of steps.
* `PartOf.wellFounded`: a property of values that passes from the parts to the whole is one of all
  values.
* `written_of_occurs`: what occurs in a value that is written is written itself.
-/

namespace FlatGraph

variable {r : Registry}

/-! ## Parts -/

/-- A value in its role is part of another one. -/
inductive PartOf (r : Registry) : Role × Value → Role × Value → Prop
  | field {declared type : String} {fields : List (String × Value)} {t : EntityType}
      {p : Property} {v : Value} (ht : r.find? type = some t) (hp : p ∈ t.properties)
      (hv : Fields.get? fields p.name = some v) :
      PartOf r (.property p, v) (.element (.entity declared), .object type fields)
  | single {p : Property} {type : TypeRef} {v : Value} (hid : p.isId = false)
      (hr : p.isReference = false) (hs : p.shape = .single type) :
      PartOf r (.element type, v) (.property p, v)
  | item {p : Property} {type : TypeRef} {items : List Value} {v : Value} (hid : p.isId = false)
      (hr : p.isReference = false) (hs : p.shape = .list type) (hv : v ∈ items) :
      PartOf r (.element type, v) (.property p, .list items)
  | key {p : Property} {key : ScalarType} {type : TypeRef} {entries : List (Value × Value)}
      {e : Value × Value} (hid : p.isId = false) (hr : p.isReference = false)
      (hs : p.shape = .map key type) (he : e ∈ entries) :
      PartOf r (.element (.scalar key), e.1) (.property p, .map entries)
  | value {p : Property} {key : ScalarType} {type : TypeRef} {entries : List (Value × Value)}
      {e : Value × Value} (hid : p.isId = false) (hr : p.isReference = false)
      (hs : p.shape = .map key type) (he : e ∈ entries) :
      PartOf r (.element type, e.2) (.property p, .map entries)

/-- A value in its role is another one, or a part of a part of it, at any depth. -/
abbrev Occurs (r : Registry) : Role × Value → Role × Value → Prop :=
  Relation.ReflTransGen (PartOf r)

/-- The object as the value that it is, where its type is declared. -/
def Object.whole (o : Object) : Role × Value := (.element (.entity o.type), o.toValue)

/-- The properties that occur in an object are those of registered types. -/
theorem registered_of_occurs {p : Property} {v : Value} {o : Object}
    (h : Occurs r (.property p, v) o.whole) :
    ∃ name t, r.find? name = some t ∧ p ∈ t.properties := by
  rcases h.cases_head with heq | ⟨next, hp, -⟩
  · cases heq
  · cases hp with
    | field ht hp => exact ⟨_, _, ht, hp⟩

/-- The size of a value in its role. The value of a property is also a part of it. -/
noncomputable def partSize : Role × Value → Nat
  | (.element _, v) => 2 * sizeOf v
  | (.property _, v) => 2 * sizeOf v + 1

theorem PartOf.size_lt {part whole : Role × Value} (h : PartOf r part whole) :
    partSize part < partSize whole := by
  cases h with
  | field _ _ hv =>
    have := Write.sizeOf_lt_of_get? hv
    simp only [partSize, Value.object.sizeOf_spec]
    omega
  | single => exact Nat.lt_succ_self _
  | item _ _ _ hv =>
    have := Value.sizeOf_lt_of_mem_items hv
    simp only [partSize]
    omega
  | key _ _ _ he | value _ _ _ he =>
    have := Value.sizeOf_lt_of_mem_entries he
    simp only [partSize]
    omega

/-- Parts of parts come to an end. -/
theorem PartOf.wellFounded : WellFounded (PartOf r) :=
  Subrelation.wf PartOf.size_lt (InvImage.wf partSize Nat.lt_wfRel.wf)

/-! ## Writing -/

open Write (Leaves)

/-- The value is written in its role, at some path. -/
def Written (r : Registry) : Role × Value → Prop
  | (.element type, v) => ∃ path xs, Leaves (Write.element r path type false v) xs
  | (.property p, v) => ∃ root path xs, Leaves (Write.property r root path p v) xs

theorem written_scalar_iff {type : ScalarType} {v : Value} :
    Written r (.element (.scalar type), v) ↔ ∃ bs, type.encode v = .ok bs := by
  by_cases hv : v.isNull = true
  · rw [Value.eq_null_of_isNull hv]
    exact iff_of_true ⟨"", [], Write.leaves_element_null_iff.2 rfl⟩ ⟨[], rfl⟩
  · rw [Bool.not_eq_true] at hv
    simp only [Written, Write.leaves_element_scalar_iff hv, Write.encode_eq_ok_iff]
    constructor
    · rintro ⟨-, _, bs, hbs, rfl⟩
      exact ⟨bs, hbs⟩
    · rintro ⟨bs, hbs⟩
      exact ⟨"", _, bs, hbs, rfl⟩

/-- The parts of a value are written with it. -/
theorem written_of_partOf {part whole : Role × Value} (h : PartOf r part whole)
    (hw : Written r whole) : Written r part := by
  cases h with
  | field ht hp hv =>
    obtain ⟨path, xs, hl⟩ := hw
    obtain ⟨_, _, t', ys, heq, ht', -, hl, -⟩ := (Write.leaves_nested_iff rfl).1 hl
    cases heq
    cases ht.symm.trans ht'
    obtain ⟨parts, hparts, -⟩ := Write.leaves_properties_iff.1 hl
    obtain ⟨zs, -, hz⟩ := Lists.exists_right_of_mem hparts hp
    rw [hv] at hz
    exact ⟨_, _, zs, hz⟩
  | single hid hr hs =>
    obtain ⟨root, path, xs, hl⟩ := hw
    rw [Write.leaves_property_single_iff hid hs, hr] at hl
    exact ⟨path, xs, hl⟩
  | @item p type items v hid hr hs hv =>
    obtain ⟨root, path, xs, hl⟩ := hw
    obtain ⟨_, heq, hl⟩ := (Write.leaves_property_list_iff hid hs).1 hl
    cases heq
    rw [hr] at hl
    obtain ⟨parts, hparts, -⟩ := Write.leaves_elements_iff.1 hl
    obtain ⟨i, hi⟩ : ∃ i, (v, i) ∈ items.zipIdx := by
      rw [← List.zipIdx_map_fst 0 items] at hv
      obtain ⟨⟨_, i⟩, hi, rfl⟩ := List.mem_map.1 hv
      exact ⟨i, hi⟩
    obtain ⟨ys, -, hy⟩ := Lists.exists_right_of_mem hparts hi
    exact ⟨_, ys, hy⟩
  | key hid hr hs he =>
    obtain ⟨root, path, xs, hl⟩ := hw
    obtain ⟨_, heq, hl⟩ := (Write.leaves_property_map_iff hid hs).1 hl
    cases heq
    obtain ⟨parts, hparts, -⟩ := Write.leaves_mapEntries_iff.1 hl
    obtain ⟨ys, -, text, ht, -⟩ := Lists.exists_right_of_mem hparts he
    exact written_scalar_iff.2 ⟨text, Write.encode_eq_ok_iff.1 ht⟩
  | value hid hr hs he =>
    obtain ⟨root, path, xs, hl⟩ := hw
    obtain ⟨_, heq, hl⟩ := (Write.leaves_property_map_iff hid hs).1 hl
    cases heq
    rw [hr] at hl
    obtain ⟨parts, hparts, -⟩ := Write.leaves_mapEntries_iff.1 hl
    obtain ⟨ys, -, text, -, hy⟩ := Lists.exists_right_of_mem hparts he
    exact ⟨_, ys, hy⟩

/-- **What occurs in a value that is written is written itself.** -/
theorem written_of_occurs {part whole : Role × Value} (h : Occurs r part whole)
    (hw : Written r whole) : Written r part := by
  induction h using Relation.ReflTransGen.head_induction_on with
  | refl => exact hw
  | head hstep _ ih => exact written_of_partOf hstep ih

/-- Whether an object is the root makes no difference to what is left for it. -/
theorem leaves_properties_root_iff {root root' : Bool} {base : String}
    {fields : List (String × Value)} {ps : List Property} {xs : List (String × Bytes)} :
    Leaves (Write.properties r root base fields ps) xs ↔
      Leaves (Write.properties r root' base fields ps) xs := by
  have hproperty : ∀ path p v ys, Leaves (Write.property r root path p v) ys ↔
      Leaves (Write.property r root' path p v) ys := fun path p v ys => by
    by_cases hid : p.isId = true
    · rw [Write.leaves_property_of_isId hid, Write.leaves_property_of_isId hid]
    · rw [Write.property, Write.property, if_neg hid, if_neg hid]
  rw [Write.leaves_properties_iff, Write.leaves_properties_iff]
  have hat : ∀ path p v? ys, Write.LeavesAt r root path p v? ys ↔
      Write.LeavesAt r root' path p v? ys := fun path p v? ys => by
    cases v? with
    | none => rfl
    | some v => exact hproperty path p v ys
  simp only [hat]

/-- What there is a record of was written. -/
theorem written_of_write {ix : Indexes} {o : Object} {record : Record}
    (h : (r.write ix o).1 = .ok record) : Written r o.whole := by
  obtain ⟨t, xs, ht, hl, -⟩ := Write.write_entries_iff.1 ⟨record, h, rfl⟩
  obtain ⟨ys, hy, -⟩ := Write.leaves_outline_iff.1 hl
  exact ⟨"", _, (Write.leaves_nested_iff rfl).2
    ⟨o.type, o.fields, t, ys, rfl, ht, .inl rfl, leaves_properties_root_iff.1 hy, rfl⟩⟩

end FlatGraph
