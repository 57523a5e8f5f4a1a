import FlatGraph.Model.Registry
import FlatGraph.Proofs.Entries
import FlatGraph.Proofs.Outcome
import FlatGraph.Proofs.Sorted

/-!
# Registries that were built

A registry arises from the empty one by registering types (`Built`). Each of its types is then
stored under its own name, and keeps the rules (`Built.sound`).
-/

namespace FlatGraph

/-! ## Rules -/

theorem Shape.isSingleScalar_iff {s : Shape} :
    s.isSingleScalar = true ↔ ∃ type, s = .single (.scalar type) := by
  cases s with
  | single type => cases type <;> simp [isSingleScalar]
  | list | map => simp [isSingleScalar]

namespace EntityType

theorem isKeyspace_iff {s : String} :
    isKeyspace s = true ↔ s ≠ "" ∧ '.' ∉ s.toList ∧ ':' ∉ s.toList := by
  simp [isKeyspace, and_assoc]

/-- The rules that `check` enforces. -/
structure Sound (t : EntityType) : Prop where
  keyspace : isKeyspace t.keyspace = true
  one_id : (t.properties.filter (·.isId)).length ≤ 1
  property : ∀ p ∈ t.properties, propertyViolation? p = none

/-- The id of a type that keeps the rules is held by the one property that is said to hold it. -/
theorem Sound.idProperty?_eq {t : EntityType} (h : t.Sound) {p : Property}
    (hp : p ∈ t.properties) (hid : p.isId = true) : t.idProperty? = some p := by
  have hm : p ∈ t.properties.filter (·.isId) := List.mem_filter.2 ⟨hp, hid⟩
  have hone : t.properties.filter (·.isId) = [p] := by
    obtain ⟨q, hq⟩ := List.length_eq_one_iff.1
      (le_antisymm h.one_id (List.length_pos_of_mem hm))
    rw [hq, List.mem_singleton] at hm
    rw [hq, hm]
  rw [idProperty?, ← List.head?_filter, hone]
  rfl

theorem sound_of_check {t : EntityType} (h : t.check = .ok ()) : t.Sound := by
  unfold check at h
  by_cases hk : isKeyspace t.keyspace = true
  swap
  · rw [if_neg hk] at h
    cases h
  rw [if_pos hk] at h
  dsimp only at h
  have hnone : (t.properties.filter (·.isId)).length ≤ 1 ∧
      t.properties.findSome? (fun p => (propertyViolation? p).map (p, ·)) = none := by
    split at h
    · cases h
    · next hne =>
      constructor
      · cases hf : t.properties.filter (·.isId) with
        | nil => exact Nat.zero_le 1
        | cons q qs =>
          cases qs with
          | nil => exact le_refl 1
          | cons q' qs => exact absurd hf (hne _ _ _)
      · split at h
        · cases h
        · assumption
  refine ⟨hk, hnone.1, fun p hm => ?_⟩
  simpa using List.findSome?_eq_none_iff.1 hnone.2 p hm

theorem check_of_sound {t : EntityType} (h : t.Sound) : t.check = .ok () := by
  have hnone : t.properties.findSome? (fun p => (propertyViolation? p).map (p, ·)) = none := by
    refine List.findSome?_eq_none_iff.2 fun p hp => ?_
    rw [h.property p hp]
    rfl
  unfold EntityType.check
  rw [if_pos h.keyspace, hnone]
  dsimp only
  split
  · next hids =>
    have hid := h.one_id
    rw [hids] at hid
    simp at hid
  · rfl

theorem propertyViolation?_eq_none_iff {p : Property} :
    propertyViolation? p = none ↔
      (p.isId = true → p.shape.isSingleScalar = true ∧ p.isReference = false) ∧
      (p.isConstructorBound = true → p.shape.isSingleScalar = true) ∧
      (p.isReference = true → ∃ name, p.shape.type = .entity name) ∧
      (p.isIndexed = true → p.shape.isSingleScalar = true) := by
  unfold propertyViolation?
  cases p.shape.type <;> cases p.isId <;> cases p.isReference <;> cases p.isIndexed <;>
    cases p.isConstructorBound <;> cases p.shape.isSingleScalar <;> simp

end EntityType

/-! ## Names -/

namespace Registry

/-- The properties of each type have names of their own that stand for one segment of a path. -/
structure Named (r : Registry) : Prop where
  isName : ∀ name t, r.find? name = some t → ∀ p ∈ t.properties, Path.IsName p.name
  distinct : ∀ name t, r.find? name = some t → (t.properties.map (·.name)).Nodup

/-- No type has an empty name. -/
def NoEmptyType (r : Registry) : Prop := ∀ name t, r.find? name = some t → name ≠ ""

/-- What is found under a name is stored under it. What holds of all types of a registry that is
written down is then decided once, over the stored types. -/
theorem mem_types_of_find? {r : Registry} {name : String} {t : EntityType}
    (h : r.find? name = some t) : (name, t) ∈ r.types := by
  obtain ⟨_, _, heq, -⟩ := List.lookup_eq_some_iff.1 h
  rw [heq]
  exact List.mem_append_right _ List.mem_cons_self

theorem Named.of_types {r : Registry} (h : ∀ e ∈ r.types,
    (∀ p ∈ e.2.properties, Path.IsName p.name) ∧ (e.2.properties.map (·.name)).Nodup) :
    r.Named where
  isName _ _ ht := (h _ (mem_types_of_find? ht)).1
  distinct _ _ ht := (h _ (mem_types_of_find? ht)).2

theorem NoEmptyType.of_types {r : Registry} (h : ∀ e ∈ r.types, e.1 ≠ "") : r.NoEmptyType :=
  fun _ _ ht => h _ (mem_types_of_find? ht)

theorem get_eq_ok_iff {r : Registry} {name : String} {t : EntityType} :
    r.get name = .ok t ↔ r.find? name = some t := by
  unfold get
  cases r.find? name <;> simp

/-! ## Registering -/

/-- The registry arises from the empty one by registering types. -/
inductive Built : Registry → Prop
  | empty : Built {}
  | register {r r' : Registry} {t t' : EntityType} (h : Built r)
      (ht : r.register t = .ok (t', r')) : Built r'

theorem register_eq_ok_iff {r r' : Registry} {t t' : EntityType} :
    r.register t = .ok (t', r') ↔
      r.inherit t = .ok t' ∧ t'.check = .ok () ∧ r' = ⟨Sorted.put t'.name t' r.types⟩ := by
  unfold register
  simp only [Outcome.bind_eq_ok_iff, Outcome.pure_eq_ok_iff, Prod.mk.injEq]
  constructor
  · rintro ⟨_, hi, ⟨⟩, hc, rfl, rfl⟩
    exact ⟨hi, hc, rfl⟩
  · rintro ⟨hi, hc, rfl⟩
    exact ⟨t', hi, (), hc, rfl, rfl⟩

/-- The types of a registry that was built are stored under their names, and keep the rules. -/
theorem Built.sound {r : Registry} (h : r.Built) {name : String} {t : EntityType}
    (ht : r.find? name = some t) : t.name = name ∧ t.Sound := by
  induction h with
  | empty => cases ht
  | register _ hr ih =>
    obtain ⟨-, hc, rfl⟩ := register_eq_ok_iff.1 hr
    rw [find?, Sorted.lookup_put] at ht
    split at ht
    · next hk =>
      cases ht
      exact ⟨hk.symm, EntityType.sound_of_check hc⟩
    · exact ih ht

/-- The types of a registry that was built stand in ascending order of their names. -/
theorem Built.ascending {r : Registry} (h : r.Built) : r.names.Pairwise (· < ·) := by
  induction h with
  | empty => exact .nil
  | register _ hr ih =>
    obtain ⟨-, -, rfl⟩ := register_eq_ok_iff.1 hr
    rw [names, Sorted.map_fst_put]
    exact Sorted.pairwise_insert _ ih

theorem Built.mem_types_iff {r : Registry} (h : r.Built) {name : String} {t : EntityType} :
    (name, t) ∈ r.types ↔ r.find? name = some t :=
  (Lists.lookup_eq_some_iff (Sorted.nodup_of_pairwise h.ascending)).symm

/-- Objects of a type can stand where the type itself is declared. -/
theorem Built.isAssignable_self {r : Registry} (h : r.Built) {name : String} {t : EntityType}
    (ht : r.find? name = some t) : r.isAssignable name name = true := by
  rw [isAssignable, reaches, ht]
  simp [(h.sound ht).1]

end Registry

end FlatGraph
