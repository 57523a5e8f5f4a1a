import FlatGraph.Proofs.Convert.Region
import FlatGraph.Proofs.Convert.Write

/-!
# The fields of an object in a record

An object leaves its type hint, if it needs one, and what its properties leave. The hint and the
properties have regions of their own, apart from each other (`apart_fieldRegion`), so that all of it
can be stored (`tidy_object`), and that the hint and each property find what was left for them
(`holds_hint`, `holds_fields`).

An object inside another is read in a record of its own, which is extracted from that of the other.
There the properties still find what was left for them (`holds_extract`), and the type of the object
is found again (`resolveType_extract`).
-/

namespace FlatGraph

open FlatGraph.Path (IsName Below Within)

/-- The region of a part of an object: the key of the type hint, or the region of a property. -/
def fieldRegion (base : String) : Option Property → String → Bool
  | none => (· == Path.hintOf base)
  | some p => inRegion (Path.join base p.name)

section Parts

variable {base : String} {ps : List Property}

/-- The parts of an object lie apart. -/
theorem apart_fieldRegion (hn : ∀ p ∈ ps, IsName p.name) (hu : (ps.map (·.name)).Nodup) :
    Apart (fieldRegion base) (none :: ps.map some) := by
  refine List.pairwise_cons.2 ⟨fun a ha k hk => ?_, ?_⟩
  · obtain ⟨p, hp, rfl⟩ := List.mem_map.1 ha
    rw [← Bool.not_eq_true, eq_of_beq (show (k == Path.hintOf base) = true from hk)]
    exact fun hw => Path.not_within_join_hintOf (hn p hp) (inRegion_iff.1 hw)
  · exact List.pairwise_map.2 (apart_properties base hn hu)

theorem exists_fieldRegion_iff {k : String} :
    (∃ a ∈ none :: ps.map some, fieldRegion base a k = true) ↔
      k = Path.hintOf base ∨ ∃ p ∈ ps, Within (Path.join base p.name) k := by
  rw [List.exists_mem_cons_iff, show fieldRegion base none k = (k == Path.hintOf base) from rfl,
    beq_iff_eq]
  simp [fieldRegion, inRegion_iff]

/-- Below a path lie the type hint and the properties of the object there. -/
theorem below_of_fieldRegion (hb : base ≠ "") {a : Option Property} {k : String}
    (hk : fieldRegion base a k = true) : Below base k := by
  cases a with
  | none =>
    rw [eq_of_beq (show (k == Path.hintOf base) = true from hk)]
    exact Path.below_hintOf hb
  | some p => exact (Path.below_join hb p.name).trans_within (inRegion_iff.1 hk)

/-! ## What is left -/

variable {before : List (String × Bytes)} {left : Property → List (String × Bytes)}

/-- What is left for an object is what is left for its parts. -/
theorem flatMap_parts (before : List (String × Bytes)) (left : Property → List (String × Bytes))
    (ps : List Property) :
    (none :: ps.map some).flatMap (·.elim before left) = before ++ ps.flatMap left := by
  rw [List.flatMap_cons, List.flatMap_map]
  rfl

variable (hn : ∀ p ∈ ps, IsName p.name) (hu : (ps.map (·.name)).Nodup)
  (hb : ∀ x ∈ before, x.1 = Path.hintOf base)
  (hin : ∀ p ∈ ps, ∀ x ∈ left p, inRegion (Path.join base p.name) x.1 = true)

include hb hin

theorem fieldRegion_of_mem : ∀ a ∈ none :: ps.map some, ∀ x ∈ a.elim before left,
    fieldRegion base a x.1 = true := by
  rw [List.forall_mem_cons, List.forall_mem_map]
  exact ⟨fun x hx => beq_iff_eq.2 (hb x hx), hin⟩

theorem below_of_mem_object (hbase : base ≠ "") {x : String × Bytes}
    (hx : x ∈ before ++ ps.flatMap left) : Below base x.1 := by
  rw [← flatMap_parts] at hx
  obtain ⟨a, ha, hx⟩ := List.mem_flatMap.1 hx
  exact below_of_fieldRegion hbase (fieldRegion_of_mem hb hin a ha x hx)

include hn

/-- No key is empty, also where the object stands in no other. -/
theorem key_ne_empty_of_object {x : String × Bytes} (hx : x ∈ before ++ ps.flatMap left) :
    x.1 ≠ "" := by
  rcases List.mem_append.1 hx with hx | hx
  · rw [hb x hx]
    exact Path.join_ne_empty (by decide)
  · obtain ⟨p, hp, hx⟩ := List.mem_flatMap.1 hx
    exact Path.ne_empty_of_within (Path.join_ne_empty (hn p hp).ne_empty)
      (inRegion_iff.1 (hin p hp x hx))

include hu

/-- What is left for an object can be stored together. -/
theorem tidy_object (ht : Tidy before) (hl : ∀ p ∈ ps, Tidy (left p)) :
    Tidy (before ++ ps.flatMap left) := by
  rw [← flatMap_parts]
  refine Tidy.flatMap (apart_fieldRegion hn hu) (fieldRegion_of_mem hb hin) ?_
  rw [List.forall_mem_cons, List.forall_mem_map]
  exact ⟨ht, hl⟩

/-! ## What is found -/

section Held

variable {es : Entries} {outer : String → Bool} (hh : Holds es outer (before ++ ps.flatMap left))
  (hi : ∀ a k, fieldRegion base a k = true → outer k = true)

include hh hi

theorem holds_parts :
    ∀ a ∈ none :: ps.map some, Holds es (fieldRegion base a) (a.elim before left) := by
  rw [← flatMap_parts] at hh
  exact hh.of_flatMap (apart_fieldRegion hn hu) (fieldRegion_of_mem hb hin) fun a _ => hi a

theorem holds_hint : Holds es (· == Path.hintOf base) before :=
  holds_parts hn hu hb hin hh hi none List.mem_cons_self

theorem holds_fields : ∀ p ∈ ps, Holds es (inRegion (Path.join base p.name)) (left p) :=
  fun p hp => holds_parts hn hu hb hin hh hi (some p)
    (List.mem_cons_of_mem _ (List.mem_map_of_mem hp))

end Held

end Parts

/-! ## Types -/

section Types

variable {r : Registry} {path type declared : String} {t : EntityType} {es : Entries}

theorem Read.resolveType_of_hint (hh : es.get? Path.hint = some (Utf8.encode type))
    (ht : r.find? type = some t) (ha : r.isAssignable type declared = true) :
    Read.resolveType r path declared es = .ok t := by
  simp only [Read.resolveType, hh, Utf8.decode_encode, ht, ha, if_true]

theorem Read.resolveType_of_none (hh : es.get? Path.hint = none) (ht : r.find? declared = some t) :
    Read.resolveType r path declared es = .ok t := by
  simp only [Read.resolveType, hh, Registry.get_eq_ok_iff.2 ht]

theorem tidy_hints (path declared : String) (hne : type ≠ "") :
    Tidy (Write.hints path type declared) := by
  unfold Write.hints
  split
  · exact .nil
  · exact .singleton (mt Utf8.encode_eq_nil_iff.1 hne)

end Types

/-! ## Objects inside objects -/

section Nested

variable {path type declared : String} {ps : List Property}
  {left : Property → List (String × Bytes)}
  (hpath : path ≠ "") (hn : ∀ p ∈ ps, IsName p.name) (hu : (ps.map (·.name)).Nodup)
  (hin : ∀ p ∈ ps, ∀ x ∈ left p, inRegion (Path.join path p.name) x.1 = true)
  {es : Entries}
  (hh : Holds es (inRegion path) (Write.hints path type declared ++ ps.flatMap left))

include hpath hin hh

theorem size_extract_object : (es.extract path).size = 0 ↔
    Write.hints path type declared ++ ps.flatMap left = [] := by
  rw [Entries.size_extract_eq_zero_iff hpath]
  constructor
  · intro h
    refine List.eq_nil_iff_forall_not_mem.2 fun x hx => ?_
    have hget := hh.get? hx
    rw [h x.1 (below_of_mem_object (fun _ => Write.fst_of_mem_hints) hin hpath hx)] at hget
    cases hget
  · intro h k hk
    rw [h] at hh
    exact hh.get?_eq_none (inRegion_iff.2 hk.within) fun _ hx => nomatch hx

include hn hu

theorem holds_nested : Holds es (· == Path.hintOf path) (Write.hints path type declared) ∧
    ∀ p ∈ ps, Holds es (inRegion (Path.join path p.name)) (left p) := by
  have hi : ∀ a k, fieldRegion path a k = true → inRegion path k = true := fun a k hk =>
    inRegion_iff.2 (below_of_fieldRegion hpath hk).within
  have hb : ∀ x ∈ Write.hints path type declared, x.1 = Path.hintOf path := fun _ =>
    Write.fst_of_mem_hints
  exact ⟨holds_hint hn hu hb hin hh hi, holds_fields hn hu hb hin hh hi⟩

/-- The properties find the same in the record of their object. -/
theorem holds_extract : ∀ p ∈ ps, Holds (es.extract path) (inRegion (Path.join path p.name))
    (left p) := by
  intro p hp
  refine ((holds_nested hpath hn hu hin hh).2 p hp).extract (fun k hk => ?_) ?_
  · exact below_of_fieldRegion (a := some p) hpath hk
  · rw [← Bool.not_eq_true, inRegion_iff]
    exact Path.not_within_join_hint (hn p hp)

/-- The type of an object inside another is found again. -/
theorem resolveType_extract {r : Registry} {t : EntityType} (ht : r.find? type = some t)
    (ha : type = declared ∨ r.isAssignable type declared = true) :
    Read.resolveType r path declared (es.extract path) = .ok t := by
  have hhint := (holds_nested hpath hn hu hin hh).1
  by_cases hd : type = declared
  · subst hd
    refine Read.resolveType_of_none ?_ ht
    rw [Entries.get?_extract_hint]
    refine hhint.get?_eq_none (beq_self_eq_true _) fun v hv => ?_
    rw [Write.hints, if_pos rfl] at hv
    cases hv
  · refine Read.resolveType_of_hint ?_ ht (ha.resolve_left hd)
    rw [Entries.get?_extract_hint]
    refine hhint.get? ?_
    rw [Write.hints, if_neg hd]
    exact List.mem_singleton_self _

end Nested

end FlatGraph
