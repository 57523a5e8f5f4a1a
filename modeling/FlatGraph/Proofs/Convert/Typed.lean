import FlatGraph.Proofs.Convert.Resolve

/-!
# Types of objects that are written

An object that is written has objects inside it, and refers to others. **What is written inside it
has a registered type that can stand where it does**, so that each type hint of its record is
understood again (`typed_of_write`). An object that is referred to has a registered type, too, but
whether this type can stand for the declared one is seen only when it is read
(`Registry.read_eq_error_of_not_isAssignable`): what refers to a guide where a town is declared is
written without complaint (`not_typed_of_write`).
-/

namespace FlatGraph

open FlatGraph.Path (Within)
open Traced (FailsWith)
open Write (Leaves)

variable {r : Registry} {ix : Indexes} {o : Object} {record : Record}

/-! ## Inside an object -/

/-- Objects of the type can stand where the other type is declared. -/
def Registry.Fits (r : Registry) (type declared : String) : Prop :=
  (∃ t, r.find? type = some t) ∧ (type = declared ∨ r.isAssignable type declared = true)

/-- An object inside one that is written fits in where it is. -/
theorem fits_of_occurs (h : (r.write ix o).1 = .ok record) {declared : String} {v : Value}
    (hv : v.isNull = false) (ho : Occurs r (.element (.entity declared), v) o.whole) :
    ∃ part : Object, v = part.toValue ∧ r.Fits part.type declared := by
  obtain ⟨path, xs, hl⟩ := written_of_occurs ho (written_of_write h)
  obtain ⟨type, fields, t, -, rfl, ht, ha, -⟩ := (Write.leaves_nested_iff hv).1 hl
  exact ⟨⟨type, fields⟩, rfl, ⟨t, ht⟩, ha⟩

/-- An object that one refers to is known by an id, and so has a registered type. -/
theorem registered_of_mem_links (hb : r.Built) (h : (r.write ix o).1 = .ok record) {l : Link}
    (hl : l ∈ o.links r) : ∃ t, r.find? l.target.type = some t := by
  obtain ⟨t, xs, ht, hleaves, -⟩ := Write.write_entries_iff.1 ⟨record, h, rfl⟩
  obtain ⟨ys, hy, rfl⟩ := Write.leaves_outline_iff.1 hleaves
  have hwhole : Leaves (Write.element r "" (.entity o.type) false o.toValue) _ :=
    (Write.leaves_nested_iff rfl).2 ⟨o.type, o.fields, t, ys, rfl, ht, .inl rfl,
      leaves_properties_root_iff.1 hy, rfl⟩
  obtain ⟨reference, href, -⟩ := (Link.storedWith hb o.whole "" _ hwhole).known l hl
  obtain ⟨t, _, _, _, ht, -⟩ := Link.reference?_eq_some_iff.1 href
  exact ⟨t, ht⟩

/-! ## Reading -/

/-- The record of an object names its type. -/
theorem Registry.get?_hint_of_write (hr : r.Named) (he : r.NoEmptyType)
    (h : (r.write ix o).1 = .ok record) :
    record.entries.get? Path.hint = some (Utf8.encode o.type) := by
  obtain ⟨t, xs, ht, hl, hes⟩ := Write.write_entries_iff.1 ⟨record, h, rfl⟩
  obtain ⟨ys, hy, rfl⟩ := Write.leaves_outline_iff.1 hl
  obtain ⟨parts, hparts, rfl⟩ := Write.leaves_properties_iff.1 hy
  have hhint : ∀ x ∈ parts.flatten, x.1 ≠ Path.hint := by
    intro x hx heq
    have hin : List.Forall₂ (fun (p : Property) ys => ∀ x ∈ ys,
        inRegion (Path.join "" p.name) x.1 = true) t.properties parts :=
      Lists.forall₂_imp_mem hparts fun p hp ys _ hys x hx => inRegion_iff.2
        (Write.region_of_leavesAt (Path.join_ne_empty (hr.isName _ t ht p hp).ne_empty) hys x hx)
    obtain ⟨p, hp, hx⟩ := exists_region_of_mem hin hx
    exact Path.not_within_join_hint (hr.isName _ t ht p hp) (heq ▸ inRegion_iff.1 hx)
  rw [hes, Entries.get?_putAll, Entries.get?_empty, Option.or_none, ← List.singleton_append,
    Entries.lastOf_append, lastOf_eq_none hhint, Option.none_or, Entries.lastOf_singleton,
    if_pos ⟨rfl, by decide, mt Utf8.encode_eq_nil_iff.1 (he _ t ht)⟩]

/-- What was written for an object cannot be read where another type is declared for which its own
cannot stand. -/
theorem Registry.read_eq_error_of_not_isAssignable (hr : r.Named) (he : r.NoEmptyType)
    (h : (r.write ix o).1 = .ok record) {declared : String}
    (ha : r.isAssignable o.type declared = false) (resolve : Resolver) :
    (r.read resolve declared record.entries).outcome =
      .error (.typeResolution o.type Path.hint) := by
  obtain ⟨t, -, ht, -⟩ := Write.write_entries_iff.1 ⟨record, h, rfl⟩
  have htype : Read.resolveType r "" declared record.entries =
      .error (.typeResolution o.type Path.hint) := by
    simp only [Read.resolveType, get?_hint_of_write hr he h, Utf8.decode_encode, ht, ha,
      Path.hintOf_empty]
    rfl
  rw [Registry.read, if_neg (Registry.size_ne_zero_of_write he h)]
  simp only [Registry.depthFor, Read.object, htype]
  rfl

/-- What was written for an object can be read where its type can stand, as far as types go. -/
theorem Registry.read_typesFound (hb : r.Built) (hr : r.Named) (he : r.NoEmptyType)
    (hk : Separate r o.whole) (h : (r.write ix o).1 = .ok record) {declared : String}
    (ha : r.isAssignable o.type declared = true) (resolve : Resolver) :
    FailsWith (TypesFound resolve) (r.read resolve declared record.entries) := by
  obtain ⟨_, -, -, -, -, hmarks, -⟩ := Followed.record hb hr he hk h ha
  exact hmarks.fails

/-- **What is written inside an object fits in where it is**, and what it refers to has a registered
type. The record can be read again as far as types go: no type is missed, unless a reference cannot
be resolved. What was written for an object that is referred to can be read as the declared type
exactly if its own type can stand for that. -/
theorem typed_of_write {r : Registry} (hb : r.Built) {ix : Indexes} {o : Object}
    {record : Record} (h : (r.write ix o).1 = .ok record) :
    (∀ declared v, v.isNull = false → Occurs r (.element (.entity declared), v) o.whole →
      ∃ part : Object, v = part.toValue ∧ r.Fits part.type declared) ∧
    (∀ l ∈ o.links r, ∃ t, r.find? l.target.type = some t) ∧
    (r.Named → r.NoEmptyType → Separate r o.whole → ∀ resolve,
      FailsWith (TypesFound resolve) (r.read resolve o.type record.entries)) ∧
    (r.Named → r.NoEmptyType → ∀ l ∈ o.links r, ∀ ix' target record', target.type = l.target.type →
      Separate r target.whole → (r.write ix' target).1 = .ok record' → ∀ resolve,
        if r.isAssignable l.target.type l.declared then
          FailsWith (TypesFound resolve) (r.read resolve l.declared record'.entries)
        else (r.read resolve l.declared record'.entries).outcome =
          .error (.typeResolution l.target.type Path.hint)) := by
  refine ⟨fun declared v hv ho => fits_of_occurs h hv ho,
    fun l hl => registered_of_mem_links hb h hl, fun hr he hk resolve => ?_,
    fun hr he l _ ix' target record' htype hk hw resolve => ?_⟩
  · obtain ⟨t, -, ht, -⟩ := Write.write_entries_iff.1 ⟨record, h, rfl⟩
    exact Registry.read_typesFound hb hr he hk h (hb.isAssignable_self ht) resolve
  · rw [← htype]
    split
    · next ha => exact Registry.read_typesFound hb hr he hk hw ha resolve
    · next ha =>
      exact Registry.read_eq_error_of_not_isAssignable hr he hw (by simpa using ha) resolve

/-! ## A tour from a guide -/

namespace Tours

/-- A guide. -/
def ada : Object := ⟨"Guide", [("name", .text "Ada")]⟩

/-- A tour that starts at a guide in place of a town. -/
def misled : Object := ⟨"Tour", [("start", ada.toValue)]⟩

theorem written_misled : ∃ record, (tours.write {} misled).1 = .ok record :=
  Outcome.exists_of_isOk (by decide +kernel)

theorem written_ada : ∃ record, (tours.write {} ada).1 = .ok record :=
  Outcome.exists_of_isOk (by decide +kernel)

theorem links_misled : misled.links tours = [⟨"start", "Town", ada⟩] := by decide +kernel

theorem separate_misled : Separate tours misled.whole := separate_of_guides fun _ h => nomatch h

theorem separate_ada : Separate tours ada.whole := separate_of_guides fun _ h => nomatch h

/-- The tour is written and can be read, but there is no town at its start. -/
theorem read_misled : ∃ record record', (tours.write {} misled).1 = .ok record ∧
    FailsWith (TypesFound .nothing) (tours.read .nothing "Tour" record.entries) ∧
    (tours.write {} ada).1 = .ok record' ∧
    (tours.read .nothing "Town" record'.entries).outcome =
      .error (.typeResolution "Guide" "_class") := by
  obtain ⟨record, hw⟩ := written_misled
  obtain ⟨record', hw'⟩ := written_ada
  obtain ⟨-, -, htour, hlinks⟩ := typed_of_write built_tours hw
  have hread := hlinks named_tours noEmptyType_tours ⟨"start", "Town", ada⟩
    (by rw [links_misled]; exact List.mem_singleton_self _) {} ada record' rfl separate_ada hw'
    .nothing
  exact ⟨record, record', hw, htour named_tours noEmptyType_tours separate_misled .nothing, hw',
    hread⟩

/-- Not everything that an object refers to can stand where it is. -/
theorem not_typed_of_write :
    ¬ ∀ (r : Registry), r.Built → r.Named → r.NoEmptyType →
      ∀ (ix : Indexes) (o : Object) (record : Record), (r.write ix o).1 = .ok record →
        (∀ declared v, v.isNull = false → Occurs r (.element (.entity declared), v) o.whole →
          ∃ part : Object, v = part.toValue ∧ r.Fits part.type declared) ∧
        ∀ l ∈ o.links r, r.Fits l.target.type l.declared := by
  intro h
  obtain ⟨record, hw⟩ := written_misled
  obtain ⟨-, hlinks⟩ := h tours built_tours named_tours noEmptyType_tours {} misled record hw
  obtain ⟨-, hfits⟩ := hlinks ⟨"start", "Town", ada⟩
    (by rw [links_misled]; exact List.mem_singleton_self _)
  exact absurd hfits (by decide)

end Tours

end FlatGraph
