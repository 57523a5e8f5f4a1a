import FlatGraph.Proofs.Convert.Write
import FlatGraph.Proofs.Index
import FlatGraph.Proofs.Scalar.Decode
import FlatGraph.Proofs.Sorted

/-!
# What a write indexes

**What was written before may add index fragments to the record of an object, and changes nothing
else about it** (`write_after`). A write makes index definitions on its way, for the values of
properties that are marked as indexed (`Registry.Meets`), and they hold for all properties of the
same name in the keyspace. So the fragments that are added are those of values that are not marked,
under a name that was marked where something was written before.

The definitions and the fragments after some steps of a walk are told by the steps alone
(`contains_foldl_apply_iff`, `mem_fragments_foldl_apply_iff`).

A write may even meet a value before it comes to the property that makes it indexed, so that the
same object gets more fragments when it is written again (`not_write_again`).
-/

namespace FlatGraph

attribute [ext] Record

/-! ## Steps -/

namespace Step

variable {keyspace : String} {steps : List Step} {record : Record} {ix : Indexes}

/-- The ids among the steps of a walk. -/
def ids (steps : List Step) : List String :=
  steps.filterMap fun
    | .identify id => some id
    | _ => none

theorem mem_ids_iff {id : String} : id ∈ ids steps ↔ .identify id ∈ steps := by
  rw [ids, List.mem_filterMap]
  constructor
  · rintro ⟨step, hmem, hid⟩
    cases step with
    | identify id' =>
      cases hid
      exact hmem
    | entry | index => cases hid
  · exact fun hmem => ⟨_, hmem, rfl⟩

theorem id_foldl_apply (keyspace : String) (steps : List Step) (record : Record) (ix : Indexes) :
    (steps.foldl (apply keyspace) (record, ix)).1.id = ((ids steps).getLast?).or record.id := by
  induction steps using List.reverseRecOn with
  | nil => rfl
  | append_singleton steps step ih =>
    rw [List.foldl_append, List.foldl_cons, List.foldl_nil, ids, List.filterMap_append]
    cases step with
    | entry key value => simpa [apply, Record.put, ids] using ih
    | identify id => simp [apply]
    | index property always text =>
      simp only [apply]
      split <;> split <;> simpa [Record.addFragment, ids] using ih

theorem contains_apply_iff {step : Step} {d : IndexDefinition} :
    (apply keyspace (record, ix) step).2.contains d = true ↔
      ix.contains d = true ∨
        d.keyspace = keyspace ∧ ∃ text, step = .index d.property true text := by
  obtain ⟨ks, name⟩ := d
  cases step with
  | entry key value => simp [apply]
  | identify id => simp [apply]
  | index property always text =>
    have hsnd : (apply keyspace (record, ix) (.index property always text)).2 =
        if always then ix.add ⟨keyspace, property⟩ else ix := by
      simp only [apply]
      split <;> split <;> rfl
    rw [hsnd]
    cases always with
    | false => simp
    | true =>
      rw [if_pos rfl, Indexes.contains_add_iff]
      simp [@eq_comm _ property]

/-- The index definitions after some steps: those from before, and one for each value that is
always indexed. -/
theorem contains_foldl_apply_iff {d : IndexDefinition} :
    (steps.foldl (apply keyspace) (record, ix)).2.contains d = true ↔
      ix.contains d = true ∨
        d.keyspace = keyspace ∧ ∃ text, .index d.property true text ∈ steps := by
  induction steps generalizing record ix with
  | nil => simp
  | cons step steps ih =>
    rw [List.foldl_cons, ← Prod.mk.eta (p := apply keyspace (record, ix) step), ih,
      contains_apply_iff, or_assoc, ← and_or_left, ← exists_or]
    simp only [List.mem_cons, @eq_comm _ step]

theorem mem_fragments_apply_iff {step : Step} {f : String} :
    f ∈ (apply keyspace (record, ix) step).1.fragments ↔
      f ∈ record.fragments ∨ ∃ property always text, step = .index property always text ∧
        text ≠ "" ∧ f = Path.indexFragment property text ∧
          (ix.contains ⟨keyspace, property⟩ = true ∨ always = true) := by
  cases step with
  | entry key value => simp [apply, Record.put]
  | identify id => simp [apply]
  | index property always text =>
    have hcontains : (if always then ix.add ⟨keyspace, property⟩ else ix).contains
        ⟨keyspace, property⟩ = true ↔
          ix.contains ⟨keyspace, property⟩ = true ∨ always = true := by
      cases always <;> simp [Indexes.contains_add_iff]
    simp only [apply, Bool.and_eq_true, bne_iff_ne, hcontains]
    split
    · next h =>
      rw [Record.addFragment, Sorted.mem_insert, or_comm]
      refine or_congr_right ⟨fun hf => ⟨_, _, _, rfl, h.1, hf, h.2⟩, ?_⟩
      rintro ⟨_, _, _, ⟨⟩, -, hf, -⟩
      exact hf
    · next h =>
      refine (or_iff_left ?_).symm
      rintro ⟨_, _, _, ⟨⟩, htext, -, hix⟩
      exact h ⟨htext, hix⟩

/-- **The index fragments after some steps**: those from before, and one for each value with a text
for which an index was defined at first, or by a step up to its own. -/
theorem mem_fragments_foldl_apply_iff {f : String} :
    f ∈ (steps.foldl (apply keyspace) (record, ix)).1.fragments ↔
      f ∈ record.fragments ∨ ∃ before property always text after,
        steps = before ++ .index property always text :: after ∧ text ≠ "" ∧
          f = Path.indexFragment property text ∧
            (ix.contains ⟨keyspace, property⟩ = true ∨ always = true ∨
              ∃ text', .index property true text' ∈ before) := by
  induction steps generalizing record ix with
  | nil => simp
  | cons step steps ih =>
    rw [List.foldl_cons, ← Prod.mk.eta (p := apply keyspace (record, ix) step), ih,
      mem_fragments_apply_iff, or_assoc]
    refine or_congr_right ⟨?_, ?_⟩
    · rintro (⟨property, always, text, rfl, htext, hf, hix⟩ |
        ⟨before, property, always, text, after, rfl, htext, hf, hix⟩)
      · exact ⟨[], property, always, text, steps, rfl, htext, hf, hix.imp_right .inl⟩
      · refine ⟨step :: before, property, always, text, after, rfl, htext, hf, ?_⟩
        rcases hix with hix | hix | ⟨text', hm⟩
        · rcases contains_apply_iff.1 hix with hix | ⟨-, text', rfl⟩
          · exact .inl hix
          · exact .inr (.inr ⟨text', List.mem_cons_self⟩)
        · exact .inr (.inl hix)
        · exact .inr (.inr ⟨text', List.mem_cons_of_mem _ hm⟩)
    · rintro ⟨before, property, always, text, after, heq, htext, hf, hix⟩
      rcases List.cons_eq_append_iff.1 heq with ⟨rfl, heq⟩ | ⟨before', rfl, rfl⟩
      · cases heq
        refine .inl ⟨property, always, text, rfl, htext, hf, hix.imp_right fun hix => ?_⟩
        exact hix.resolve_right fun ⟨_, hm⟩ => List.not_mem_nil hm
      · refine .inr ⟨before', property, always, text, after, rfl, htext, hf, ?_⟩
        rw [contains_apply_iff]
        rcases hix with hix | hix | ⟨text', hm⟩
        · exact .inl (.inl hix)
        · exact .inr (.inl hix)
        · rcases List.mem_cons.1 hm with rfl | hm
          · exact .inl (.inr ⟨rfl, text', rfl⟩)
          · exact .inr (.inr ⟨text', hm⟩)

theorem pairwise_fragments_foldl_apply (h : record.fragments.Pairwise (· < ·)) :
    (steps.foldl (apply keyspace) (record, ix)).1.fragments.Pairwise (· < ·) := by
  induction steps generalizing record ix with
  | nil => exact h
  | cons step steps ih =>
    rw [List.foldl_cons, ← Prod.mk.eta (p := apply keyspace (record, ix) step)]
    apply ih
    cases step with
    | entry key value => exact h
    | identify id => exact h
    | index property always text =>
      simp only [apply]
      split <;> split
      · exact Sorted.pairwise_insert _ h
      · exact h
      · exact Sorted.pairwise_insert _ h
      · exact h

end Step

/-! ## Values of properties -/

/-- The text by which a value of a scalar property may be found: that of the bytes that are stored,
but for an id its own. -/
def Property.indexedText (p : Property) (type : ScalarType) (v : Value) :
    Except ScalarError String :=
  if p.isId then v.toText else type.keyText v

theorem ScalarType.isScalar_of_encode {type : ScalarType} {v : Value} {bs : Bytes}
    (hv : v.isNull = false) (h : type.encode v = .ok bs) : v.isScalar = true := by
  cases v with
  | null => cases hv
  | list | map | object => cases h
  | _ => rfl

namespace Write

variable {r : Registry} {root : Bool} {base path text : String} {p : Property}
  {fields : List (String × Value)} {ps : List Property} {type : ScalarType} {v : Value}

theorem property_of_isId (hid : p.isId = true) (hv : v.isScalar = true)
    (ht : v.toText = .ok text) :
    property r root path p v =
      ⟨(if root && text != "" then [.identify text] else []) ++
        [.entry path (Utf8.encode text), .index p.name p.isIndexed text], .ok ()⟩ := by
  have hid' : (liftM (idText path v) : Walk String) = pure text := by
    rw [idText_eq_ok_iff.2 ⟨hv, ht⟩]
    rfl
  rw [property, if_pos hid, hid', pure_bind]
  dsimp only
  split <;> rfl

theorem property_of_scalar {bs : Bytes} (hid : p.isId = false)
    (hs : p.shape = .single (.scalar type)) (hv : v.isScalar = true) (hb : type.encode v = .ok bs) :
    property r root path p v =
      ⟨[.entry path bs, .index p.name p.isIndexed (Utf8.lossy bs)], .ok ()⟩ := by
  have hencode : encode path v type = .ok bs := encode_eq_ok_iff.2 hb
  have helement : element r path (.scalar type) p.isReference v = ⟨[.entry path bs], .ok ()⟩ := by
    rw [element.eq_def]
    cases v with
    | null | list | map | object => cases hv
    | _ =>
      simp only [hencode]
      rfl
  rw [property, if_neg (by simp [hid]), hs]
  dsimp only
  rw [helement, hencode]
  rfl

/-- A walk that succeeds puts down the value of a scalar property, and meets it. -/
theorem scalar_mem_property (hs : p.isId = true ∨ p.shape = .single (.scalar type))
    (hv : v.isNull = false) (ht : p.indexedText type v = .ok text)
    (ho : (property r root path p v).outcome = .ok ()) :
    .index p.name p.isIndexed text ∈ (property r root path p v).trace ∧
      ∃ bs, Utf8.lossy bs = text ∧ .entry path bs ∈ (property r root path p v).trace := by
  unfold Property.indexedText at ht
  by_cases hid : p.isId = true
  · rw [if_pos hid] at ht
    obtain ⟨id, hi, -⟩ := (leaves_property_of_isId hid).1 ⟨ho, rfl⟩
    rw [property_of_isId hid (idText_eq_ok_iff.1 hi).1 ht]
    exact ⟨by simp, Utf8.encode text, Utf8.lossy_encode text, by simp⟩
  · rw [if_neg hid] at ht
    obtain ⟨bs, hb, rfl⟩ := Outcome.map_eq_ok_iff.1 ht
    rw [property_of_scalar (by simpa using hid) (hs.resolve_left hid)
      (ScalarType.isScalar_of_encode hv hb) hb]
    exact ⟨by simp, bs, rfl, by simp⟩

end Write

/-! ## Writes -/

namespace Registry

variable {r : Registry} {ix : Indexes} {o : Object} {os : List Object}

/-- The walk over an object meets a value of a property with this name, to be indexed in a
keyspace; `always` if the property is marked as indexed. -/
def Meets (r : Registry) (o : Object) (keyspace property : String) (always : Bool)
    (text : String) : Prop :=
  ∃ t, r.find? o.type = some t ∧ t.keyspace = keyspace ∧
    .index property always text ∈ (r.outline t o).trace

/-- The index definitions after objects were written one after another. -/
def indexesAfter (r : Registry) (ix : Indexes) (os : List Object) : Indexes :=
  os.foldl (fun ix o => (r.write ix o).2) ix

/-- A write defines an index for each value that it meets of a property marked as indexed, also if
it fails. -/
theorem contains_write_iff {d : IndexDefinition} :
    (r.write ix o).2.contains d = true ↔
      ix.contains d = true ∨ ∃ text, r.Meets o d.keyspace d.property true text := by
  cases ht : r.find? o.type with
  | none => simp [write, get, ht, Meets]
  | some t =>
    rw [write_of_outline ht rfl, Step.contains_foldl_apply_iff]
    simp [Meets, ht, @eq_comm _ d.keyspace]

theorem contains_indexesAfter_iff {d : IndexDefinition} :
    (r.indexesAfter ix os).contains d = true ↔
      ix.contains d = true ∨ ∃ o ∈ os, ∃ text, r.Meets o d.keyspace d.property true text := by
  induction os generalizing ix with
  | nil => simp [indexesAfter]
  | cons o os ih =>
    rw [indexesAfter, List.foldl_cons, ← indexesAfter, ih, contains_write_iff]
    simp [or_assoc]

/-- The fragments that index definitions of earlier writes add to those of a walk. -/
theorem mem_fragments_after {t : EntityType} (ht : r.find? o.type = some t) {steps : List Step}
    (hsteps : (r.outline t o).trace = steps) (f : String) :
    f ∈ (steps.foldl (Step.apply t.keyspace)
        ({ keyspace := some t.keyspace }, r.indexesAfter ix os)).1.fragments ↔
      f ∈ (steps.foldl (Step.apply t.keyspace) ({ keyspace := some t.keyspace }, ix)).1.fragments ∨
        ∃ keyspace property text, r.Meets o keyspace property false text ∧ text ≠ "" ∧
          f = Path.indexFragment property text ∧
          ∃ o' ∈ os, ∃ text', r.Meets o' keyspace property true text' := by
  rw [Step.mem_fragments_foldl_apply_iff, Step.mem_fragments_foldl_apply_iff, or_assoc]
  refine or_congr_right ⟨?_, ?_⟩
  · rintro ⟨before, property, always, text, after, rfl, htext, rfl, hix⟩
    rw [contains_indexesAfter_iff] at hix
    have hmem : .index property always text ∈ (r.outline t o).trace := by
      rw [hsteps]
      exact List.mem_append_right _ List.mem_cons_self
    rcases hix with (hix | hearlier) | hix
    · exact .inl ⟨before, property, always, text, after, rfl, htext, rfl, .inl hix⟩
    · cases always with
      | false => exact .inr ⟨_, property, text, ⟨t, ht, rfl, hmem⟩, htext, rfl, hearlier⟩
      | true => exact .inl ⟨before, property, true, text, after, rfl, htext, rfl, .inr (.inl rfl)⟩
    · exact .inl ⟨before, property, always, text, after, rfl, htext, rfl, .inr hix⟩
  · rintro (⟨before, property, always, text, after, rfl, htext, rfl, hix⟩ |
      ⟨keyspace, property, text, ⟨t', ht', rfl, hm⟩, htext, rfl, hearlier⟩)
    · refine ⟨before, property, always, text, after, rfl, htext, rfl, hix.imp_left fun hix => ?_⟩
      exact contains_indexesAfter_iff.2 (.inl hix)
    · cases ht.symm.trans ht'
      rw [hsteps] at hm
      obtain ⟨before, after, rfl⟩ := List.append_of_mem hm
      exact ⟨before, property, false, text, after, rfl, htext, rfl,
        .inl (contains_indexesAfter_iff.2 (.inr hearlier))⟩

/-- **What was written before changes nothing about a write but the index fragments.** These are
those of the first write, and one for each value that is not marked as indexed, under a name that
was marked as indexed where something was written before in the same keyspace. -/
theorem write_after (r : Registry) (ix : Indexes) (os : List Object) (o : Object) :
    (∃ e, (r.write (r.indexesAfter ix os) o).1 = .error e ∧ (r.write ix o).1 = .error e) ∨
      ∃ later first, (r.write (r.indexesAfter ix os) o).1 = .ok later ∧
        (r.write ix o).1 = .ok first ∧ later.entries = first.entries ∧
        later.keyspace = first.keyspace ∧ later.id = first.id ∧
        (∀ f, f ∈ later.fragments ↔ f ∈ first.fragments ∨
          ∃ keyspace property text, r.Meets o keyspace property false text ∧ text ≠ "" ∧
            f = Path.indexFragment property text ∧
            ∃ o' ∈ os, ∃ text', r.Meets o' keyspace property true text') ∧
        ((∀ keyspace property text, r.Meets o keyspace property false text → ∀ o' ∈ os, ∀ text',
          ¬ r.Meets o' keyspace property true text') → later = first) := by
  cases ht : r.find? o.type with
  | none => exact .inl ⟨.unknownType o.type, by simp [write, get, ht], by simp [write, get, ht]⟩
  | some t =>
    rw [write_of_outline ht rfl, write_of_outline ht rfl]
    cases ho : (r.outline t o).outcome with
    | error e => exact .inl ⟨e, rfl, rfl⟩
    | ok u =>
      refine .inr ⟨_, _, rfl, rfl, ?_⟩
      generalize hsteps : (r.outline t o).trace = steps
      have hentries := Step.entries_foldl_apply t.keyspace steps { keyspace := some t.keyspace }
      have hkeyspace := Step.keyspace_foldl_apply t.keyspace steps { keyspace := some t.keyspace }
      have hid := Step.id_foldl_apply t.keyspace steps { keyspace := some t.keyspace }
      have hfragments := @mem_fragments_after r ix o os t ht steps hsteps
      refine ⟨by rw [hentries, hentries], by rw [hkeyspace, hkeyspace], by rw [hid, hid],
        hfragments, fun hnone => ?_⟩
      apply Record.ext
      · rw [hkeyspace, hkeyspace]
      · rw [hid, hid]
      · rw [hentries, hentries]
      refine Sorted.eq_of_mem_iff (Step.pairwise_fragments_foldl_apply .nil)
        (Step.pairwise_fragments_foldl_apply .nil) fun f => (hfragments f).trans (or_iff_left ?_)
      rintro ⟨keyspace, property, text, hm, -, -, o', ho', text', hm'⟩
      exact hnone keyspace property text hm o' ho' text' hm'

/-! ## Records -/

section Record

variable {record : Record} {t : EntityType} {p : Property} {type : ScalarType} {v : Value}
  {text : String} (h : (r.write ix o).1 = .ok record) (ht : r.find? o.type = some t)

include h ht

theorem record_of_write : (r.outline t o).outcome = .ok () ∧
    record = ((r.outline t o).trace.foldl (Step.apply t.keyspace)
      ({ keyspace := some t.keyspace }, ix)).1 := by
  rw [write_of_outline ht rfl] at h
  obtain ⟨⟨⟩, ho, hr⟩ := Outcome.map_eq_ok_iff.1 h
  exact ⟨ho, hr.symm⟩

/-- The walk over an object that was written includes one over each of its values. -/
theorem trace_subset_of_write (hp : p ∈ t.properties) (hv : o.get? p.name = some v) :
    (Write.property r true p.name p v).outcome = .ok () ∧
      (Write.property r true p.name p v).trace ⊆ (r.outline t o).trace := by
  obtain ⟨ho, -⟩ := record_of_write h ht
  have hincludes : Traced.Includes (r.outline t o) (Write.property r true p.name p v) := by
    have hproperty : Traced.Includes (Write.properties r true "" o.fields t.properties)
        (Write.property r true (Path.join "" p.name) p v) := Write.properties_includes hp hv
    rw [Path.join_empty] at hproperty
    exact Traced.includes_bind fun _ _ => hproperty
  obtain ⟨⟨⟨⟩, hvalue⟩, hsub⟩ := hincludes () ho
  exact ⟨hvalue, hsub⟩

/-- The record of an object has a fragment for each value of a property that is indexed. -/
theorem mem_fragments_of_write (hp : p ∈ t.properties) (hs : p.shape = .single (.scalar type))
    (hv : o.get? p.name = some v) (htext : p.indexedText type v = .ok text) (hne : text ≠ "")
    (hix : p.isIndexed = true ∨ ix.contains ⟨t.keyspace, p.name⟩ = true) :
    Path.indexFragment p.name text ∈ record.fragments := by
  obtain ⟨hvalue, hsub⟩ := trace_subset_of_write h ht hp hv
  have hmem := hsub
    (Write.scalar_mem_property (.inr hs) (Fields.isNull_of_get? hv) htext hvalue).1
  obtain ⟨before, after, heq⟩ := List.append_of_mem hmem
  rw [(record_of_write h ht).2, Step.mem_fragments_foldl_apply_iff]
  exact .inr ⟨before, p.name, p.isIndexed, text, after, heq, hne, rfl,
    hix.symm.imp_right .inl⟩

/-- The walk over an object with an id gives the id. -/
theorem identify_mem_of_write (hp : p ∈ t.properties) (hid : p.isId = true)
    (hv : o.get? p.name = some v) (htext : v.toText = .ok text) (hne : text ≠ "") :
    .identify text ∈ (r.outline t o).trace := by
  obtain ⟨hvalue, hsub⟩ := trace_subset_of_write h ht hp hv
  obtain ⟨id, hi, -⟩ := (Write.leaves_property_of_isId hid).1 ⟨hvalue, rfl⟩
  rw [Write.property_of_isId hid (Write.idText_eq_ok_iff.1 hi).1 htext,
    if_pos (by simpa using hne)] at hsub
  exact hsub (by simp)

/-- The record of an object with an id knows an id. -/
theorem id_ne_none_of_write (hp : p ∈ t.properties) (hid : p.isId = true)
    (hv : o.get? p.name = some v) (htext : v.toText = .ok text) (hne : text ≠ "") :
    record.id ≠ none := by
  have hids : text ∈ Step.ids (r.outline t o).trace :=
    Step.mem_ids_iff.2 (identify_mem_of_write h ht hp hid hv htext hne)
  rw [(record_of_write h ht).2, Step.id_foldl_apply, List.getLast?_eq_some_getLast
    (List.ne_nil_of_mem hids)]
  simp

end Record

end Registry

/-! ## Citizens -/

namespace Citizens

/-- The name of something, by which it may be found. -/
def name (isIndexed : Bool) : Property :=
  { name := "name", shape := .single (.scalar .text), isIndexed }

/-- Towns are found by their names. -/
def town : EntityType := { name := "Town", properties := [name true] }

/-- Citizens have a name, by which they are not found, and a town. -/
def citizen : EntityType :=
  { name := "Citizen"
    properties := [name false, { name := "town", shape := .single (.entity "Town") }] }

/-- The registry of citizens and towns. -/
def registry : Registry := ⟨[("Citizen", citizen), ("Town", town)]⟩

/-- A citizen of a town. -/
def ann : Object :=
  ⟨"Citizen", [("name", .text "ann"), ("town", .object "Town" [("name", .text "oslo")])]⟩

end Citizens

open Citizens in
/-- The name of the citizen is met before that of the town makes it indexed. Written again, the
citizen can be found by both. -/
theorem not_write_again :
    ¬ ∀ (r : Registry) (ix : Indexes) (os : List Object) (o : Object),
      (∃ e, (r.write (r.indexesAfter ix os) o).1 = .error e ∧ (r.write ix o).1 = .error e) ∨
        ∃ later first, (r.write (r.indexesAfter ix os) o).1 = .ok later ∧
          (r.write ix o).1 = .ok first ∧ later.entries = first.entries ∧
          later.keyspace = first.keyspace ∧ later.id = first.id ∧
          later.fragments = first.fragments := by
  intro h
  have hfragments : (registry.write (registry.indexesAfter {} [ann]) ann).1.map (·.fragments) =
      .ok ["name:ann", "name:oslo"] := by decide +kernel
  have hfirst : (registry.write {} ann).1.map (·.fragments) = .ok ["name:oslo"] := by
    decide +kernel
  rcases h registry {} [ann] ann with ⟨e, -, he⟩ | ⟨later, first, hl, hf, -, -, -, heq⟩
  · rw [he] at hfirst
    cases hfirst
  · rw [hl, Except.map, heq] at hfragments
    rw [hf, Except.map, Except.ok.inj hfragments] at hfirst
    revert hfirst
    decide

end FlatGraph
