import FlatGraph.Proofs.Convert.Conforming
import FlatGraph.Proofs.Convert.Parts

/-!
# What is read can be written

**An object that was read can be written exactly if none of its parts in single precision is one of
the greatest numbers there** (`write_of_read_iff`). These are read in double precision as numbers
beyond the range, by the rounding of their shortest texts, and writing refuses them. Everything
else that a reader yields is accepted: what is read conforms to the schema, so do its parts, and a
value that conforms is written if its scalars are.
-/

namespace FlatGraph

open Write (Leaves)

variable {r : Registry}

/-! ## Parts -/

/-- The parts of what conforms conform. -/
theorem conforms_of_partOf {part whole : Role × Value} (h : PartOf r part whole)
    (hc : Conforms r whole.1 whole.2) : Conforms r part.1 part.2 := by
  cases h with
  | field ht hp hv =>
    cases hc with
    | object ht' _ hd _ hfields =>
      cases ht.symm.trans ht'
      exact hfields _ ((Fields.get?_eq_some_iff hd).1 hv).1 _ hp rfl
  | single hid hr hs =>
    cases hc with
    | single _ hs' h =>
      cases hs.symm.trans hs'
      exact h
    | list _ hs' | map _ hs' => cases hs.symm.trans hs'
  | item hid hr hs hv =>
    cases hc with
    | list _ hs' _ h =>
      cases hs.symm.trans hs'
      exact h _ hv
    | single _ hs' => cases hs.symm.trans hs'
  | key hid hr hs he =>
    cases hc with
    | map _ hs' _ hk =>
      cases hs.symm.trans hs'
      exact .scalar (hk _ he)
    | single _ hs' => cases hs.symm.trans hs'
  | value hid hr hs he =>
    cases hc with
    | map _ hs' _ _ h =>
      cases hs.symm.trans hs'
      exact h _ he
    | single _ hs' => cases hs.symm.trans hs'

theorem conforms_of_occurs {part whole : Role × Value} (h : Occurs r part whole)
    (hc : Conforms r whole.1 whole.2) : Conforms r part.1 part.2 := by
  induction h using Relation.ReflTransGen.head_induction_on with
  | refl => exact hc
  | head hstep _ ih => exact conforms_of_partOf hstep ih

/-- So the scalars that occur in what conforms are values of their declared types. -/
theorem admits_of_occurs {type : ScalarType} {v : Value} {whole : Role × Value}
    (h : Occurs r (.element (.scalar type), v) whole) (hc : Conforms r whole.1 whole.2) :
    type.Admits v := by
  cases conforms_of_occurs h hc with
  | scalar h => exact h

/-! ## Writing -/

/-- The scalars that occur in a value can be written as their declared types. -/
def Encodes (r : Registry) (whole : Role × Value) : Prop :=
  ∀ type v, Occurs r (.element (.scalar type), v) whole → ∃ bs, type.encode v = .ok bs

theorem Encodes.of_partOf {part whole : Role × Value} (h : Encodes r whole)
    (hp : PartOf r part whole) : Encodes r part :=
  fun type v ho => h type v (ho.tail hp)

/-- The value is written in its role, at every path. -/
def Writable (r : Registry) : Role × Value → Prop
  | (.element type, v) => ∀ path, ∃ xs, Leaves (Write.element r path type false v) xs
  | (.property p, v) => EntityType.propertyViolation? p = none →
      ∀ root path, ∃ xs, Leaves (Write.property r root path p v) xs

/-- The value of a property that holds one can be written, as an id or as any value. -/
theorem writable_single {p : Property} {type : TypeRef} {v : Value} (hr : p.isReference = false)
    (hs : p.shape = .single type) (hc : Conforms r (.element type) v)
    (h : p.isId = false → Writable r (.element type, v)) : Writable r (.property p, v) := by
  intro hp root path
  by_cases hid : p.isId = true
  · have hscalar := ((EntityType.propertyViolation?_eq_none_iff.1 hp).1 hid).1
    rw [hs] at hscalar
    cases hc with
    | scalar hv =>
      obtain ⟨text, ht⟩ := Value.exists_toText hv.isScalar
      exact ⟨_, (Write.leaves_property_of_isId hid).2
        ⟨text, Write.idText_eq_ok_iff.2 ⟨hv.isScalar, ht⟩, rfl⟩⟩
    | object => cases hscalar
  · rw [Bool.not_eq_true] at hid
    simp only [Write.leaves_property_single_iff hid hs, hr]
    exact h hid path

/-- A property that holds a list or a map is no id. -/
theorem isId_of_not_single {p : Property} (hp : EntityType.propertyViolation? p = none)
    (hs : p.shape.isSingleScalar = false) : p.isId = false := by
  by_contra hid
  rw [Bool.not_eq_false] at hid
  rw [((EntityType.propertyViolation?_eq_none_iff.1 hp).1 hid).1] at hs
  cases hs

/-- **What conforms is written if its scalars are.** -/
theorem writable_of_conforms (hb : r.Built) {role : Role} {v : Value} (h : Conforms r role v)
    (he : Encodes r (role, v)) : Writable r (role, v) := by
  induction h with
  | @scalar type v h =>
    intro path
    obtain ⟨bs, hbs⟩ := he type v .refl
    exact ⟨_, (Write.leaves_element_scalar_iff h.isNull).2
      ⟨bs, Write.encode_eq_ok_iff.2 hbs, rfl⟩⟩
  | @object declared type fields t ht ha hd hn hp ih =>
    intro path
    have hparts : ∀ p ∈ t.properties, ∃ ys,
        Write.LeavesAt r false (Path.join path p.name) p (Fields.get? fields p.name) ys := by
      intro p hm
      cases hv : Fields.get? fields p.name with
      | none => exact ⟨[], rfl⟩
      | some v =>
        exact ih _ ((Fields.get?_eq_some_iff hd).1 hv).1 p hm rfl (he.of_partOf (.field ht hm hv))
          ((hb.sound ht).2.property p hm) false _
    obtain ⟨parts, hl⟩ := Lists.exists_forall₂ hparts
    exact ⟨_, (Write.leaves_nested_iff rfl).2
      ⟨type, fields, t, _, rfl, ht, ha, Write.leaves_properties_iff.2 ⟨parts, hl, rfl⟩, rfl⟩⟩
  | single hr hs hc ih =>
    exact writable_single hr hs hc fun hid => ih (he.of_partOf (.single hid hr hs))
  | @list p type items hr hs hne hc ih =>
    intro hp root path
    have hid := isId_of_not_single hp (by rw [hs]; rfl)
    have hparts : ∀ v ∈ items.zipIdx, ∃ ys, Leaves (Write.element r
        (Path.element path (.ofList (Number.natText v.2))) type false v.1) ys := fun v hv => by
      have hv' : v.1 ∈ items := List.fst_mem_of_mem_zipIdx hv
      exact ih _ hv' (he.of_partOf (.item hid hr hs hv')) _
    obtain ⟨parts, hl⟩ := Lists.exists_forall₂ hparts
    refine ⟨parts.flatten, (Write.leaves_property_list_iff hid hs).2 ⟨items, rfl, ?_⟩⟩
    rw [hr]
    exact Write.leaves_elements_iff.2 ⟨parts, hl, rfl⟩
  | @map p key type entries hr hs hne hk hc ih =>
    intro hp root path
    have hid := isId_of_not_single hp (by rw [hs]; rfl)
    have hparts : ∀ e ∈ entries, ∃ ys text, Write.encode path e.1 key = .ok text ∧
        Leaves (Write.element r (Path.element path (Utf8.lossy text)) type false e.2) ys :=
      fun e hm => by
        obtain ⟨text, ht⟩ := he key e.1 (.single (.key hid hr hs hm))
        obtain ⟨ys, hy⟩ := ih e hm (he.of_partOf (.value hid hr hs hm))
          (Path.element path (Utf8.lossy text))
        exact ⟨ys, text, Write.encode_eq_ok_iff.2 ht, hy⟩
    obtain ⟨parts, hl⟩ := Lists.exists_forall₂ hparts
    refine ⟨parts.flatten, (Write.leaves_property_map_iff hid hs).2 ⟨entries, rfl, ?_⟩⟩
    rw [hr]
    exact Write.leaves_mapEntries_iff.2 ⟨parts, hl, rfl⟩

/-! ## Records -/

/-- An object that is its own whole can be written as a root. -/
theorem exists_write_of_writable {o : Object} (h : Writable r o.whole) (ix : Indexes) :
    ∃ record, (r.write ix o).1 = .ok record := by
  obtain ⟨xs, hl⟩ := h ""
  obtain ⟨type, fields, t, ys, ho, ht, -, hy, -⟩ := (Write.leaves_nested_iff rfl).1 hl
  cases ho
  obtain ⟨record, hw, -⟩ := Write.write_entries_iff.2 ⟨t, _, ht, Write.leaves_outline_iff.2
    ⟨ys, leaves_properties_root_iff.1 hy, rfl⟩, rfl⟩
  exact ⟨record, hw⟩

/-- **What is read can be written, unless one of the greatest numbers in single precision is in
it**, at any depth and from whatever record; and the same holds of each scalar. -/
theorem write_of_read_iff {r : Registry} (hb : r.Built) (hr : r.Named) {type : String}
    {es : Entries} {o : Object} (h : (r.read .nothing type es).outcome = .ok (some o))
    (ix : Indexes) :
    ((∃ record, (r.write ix o).1 = .ok record) ↔ ∀ negative,
      ¬ Occurs r (.element (.scalar .float32), ScalarType.greatestSingle negative) o.whole) ∧
    ∀ (type : ScalarType) (bs : Bytes) (v : Value), type.decode bs = .ok (some v) →
      ((∃ bs', type.encode v = .ok bs') ↔
        ¬ (type = .float32 ∧ ∃ negative, v = ScalarType.greatestSingle negative)) := by
  refine ⟨?_, fun type bs v h => (ScalarType.admits_of_decode h).encode_iff⟩
  have hc : Conforms r (.element (.entity o.type)) o.toValue := by
    cases Read.conforms_of_object hb hr.distinct _ _ _ _ _ (Registry.read_eq_some_iff.1 h).2 with
    | object ht _ hd hn hp => exact .object ht (.inl rfl) hd hn hp
  constructor
  · rintro ⟨record, hw⟩ negative ho
    have hencode := written_scalar_iff.1 (written_of_occurs ho (written_of_write hw))
    exact (ScalarType.Admits.float32 _).encode_iff.1 hencode ⟨rfl, negative, rfl⟩
  · intro hno
    refine exists_write_of_writable (writable_of_conforms hb hc fun type' v ho => ?_) ix
    refine (admits_of_occurs ho hc).encode_iff.2 ?_
    rintro ⟨rfl, negative, rfl⟩
    exact hno negative ho

/-! ## Overloaded stations -/

namespace Network

open ScalarType (greatestSingle)

/-- A station of which only the load is known. -/
def loaded (v : Value) : Object := ⟨"Station", [("load", v)]⟩

/-- The record of a load. -/
def recordOf (raw : Bytes) : Entries := Entries.empty.putAll [("load", raw)]

theorem read_recordOf {raw : Bytes} {v : Value}
    (h : ScalarType.float32.decode raw = .ok (some v)) :
    (network.read .nothing "Station" (recordOf raw)).outcome = .ok (some (loaded v)) := by
  have hget : ∀ k, (recordOf raw).get? k = if k = "load" then some raw else none := fun k => by
    rw [recordOf, Entries.get?_putAll, Entries.lastOf_singleton, Entries.get?_empty, Option.or_none]
    simp [ScalarType.ne_nil_of_decode h]
  have hload : (recordOf raw).get? "load" = some raw := by rw [hget, if_pos rfl]
  have hsize : (recordOf raw).size ≠ 0 := fun h0 => by
    rw [Entries.size_eq_zero_iff.1 h0] at hload
    cases hload
  have hnone : ∀ nested (p : Property), p.name ≠ "" → ¬ Path.Within p.name "load" →
      (Read.property .nothing nested (Path.join "" p.name) p (recordOf raw)).outcome =
        .ok none := fun nested p hp hw => by
    rw [Path.join_empty]
    refine Read.property_of_empty hp fun k hk => ?_
    rw [hget, if_neg]
    rintro rfl
    exact hw hk
  refine Registry.read_eq_some_iff.2 ⟨hsize, Read.object_eq_ok_iff.2 ⟨station,
    [("number", none), ("sign", none), ("load", some v), ("opened", none), ("tracks", none),
      ("lines", none)], ?_, ?_, rfl⟩⟩
  · rw [Read.resolveType, hget, if_neg (by decide)]
    rfl
  · refine .cons ⟨rfl, hnone _ number (by decide) (by decide)⟩ (.cons
      ⟨rfl, hnone _ sign (by decide) (by decide)⟩ (.cons ⟨rfl, ?_⟩ (.cons
      ⟨rfl, hnone _ opened (by decide) (by decide)⟩ (.cons
      ⟨rfl, hnone _ tracks (by decide) (by decide)⟩ (.cons
      ⟨rfl, hnone _ lines (by decide) (by decide)⟩ .nil)))))
    rw [Read.property_single rfl, Read.valueAt_scalar_eq_ok_iff,
      show Path.join "" load.name = "load" from Path.join_empty _, hload]
    exact h

theorem occurs_loaded_iff {v x : Value} (hv : v.isNull = false) :
    Occurs network (.element (.scalar .float32), x) (loaded v).whole ↔ x = v := by
  have hget : ∀ name, Fields.get? (loaded v).fields name = if name = "load" then some v else none :=
    fun name => by
      rw [loaded, Fields.get?_cons, hv]
      rfl
  constructor
  · intro h
    rcases Relation.ReflTransGen.cases_tail h with h | ⟨part, hload, hpart⟩
    · cases h
    cases hpart with
    | @field _ _ _ t p w ht hp hw =>
      cases (show station = t from Option.some.inj ht)
      rw [hget] at hw
      split_ifs at hw with hname
      cases hw
      have hp : p = load := List.inj_on_of_nodup_map (named_network.distinct _ _ ht) hp (by decide)
        hname
      subst hp
      rcases Relation.ReflTransGen.cases_tail hload with h | ⟨part, hvalue, hpart⟩
      · cases h
      cases hpart with
      | single _ _ hs =>
        cases hs
        rcases Relation.ReflTransGen.cases_tail hvalue with h | ⟨part, -, hpart⟩
        · cases h
          rfl
        · cases hpart
      | item _ _ hs | key _ _ hs | value _ _ hs => cases hs
  · rintro rfl
    have hpart : PartOf network (.property load, x) (loaded x).whole :=
      .field (t := station) rfl (by decide) (by rw [hget]; rfl)
    exact .tail (.single (.single rfl rfl rfl)) hpart

/-- The number that a text stands for in single precision, as it is read. -/
theorem decode_single {s : String} {x : Number.Floating Number.binary32} (hs : s ≠ "")
    (h : Number.Floating.read Number.binary32 (Text.trim s).toList = .ok x) :
    ScalarType.float32.decode (Utf8.encode s) = .ok (some (.float (widen x))) := by
  refine ScalarType.decode_encode_eq_some_iff.2 ⟨hs, ?_⟩
  rw [ScalarType.decodeText]
  simp only [h]

theorem decode_greatest :
    ScalarType.float32.decode (Utf8.encode "340282350000000000000000000000000000000") =
      .ok (some (greatestSingle false)) :=
  decode_single (by decide) (by decide +kernel)

theorem decode_half :
    ScalarType.float32.decode (Utf8.encode " 0.50") =
      .ok (some (.float (widen (.ofRatio false 1 2)))) :=
  decode_single (by decide) (by decide +kernel)

/-- A station with an ordinary load can be written again, and one with the greatest load cannot. -/
theorem write_loaded :
    (∃ record, (network.write {} (loaded (.float (widen (.ofRatio false 1 2))))).1 = .ok record) ∧
      ¬ ∃ record, (network.write {} (loaded (greatestSingle false))).1 = .ok record := by
  constructor
  · refine (write_of_read_iff built_network named_network (read_recordOf decode_half) {}).1.2
      fun negative h => ?_
    have hne : ∀ negative, widen (.greatest Number.binary32 negative) ≠
        widen (.ofRatio false 1 2) := by decide +kernel
    exact hne negative (Value.float.inj ((occurs_loaded_iff rfl).1 h))
  · exact fun h => (write_of_read_iff built_network named_network (read_recordOf decode_greatest)
      {}).1.1 h false ((occurs_loaded_iff rfl).2 rfl)

/-- Not everything that is read can be written. -/
theorem not_forall_write_of_read :
    ¬ ∀ (r : Registry), r.Built → r.Named → ∀ (type : String) (es : Entries) (o : Object),
      (r.read .nothing type es).outcome = .ok (some o) → ∀ ix : Indexes,
        ∃ record, (r.write ix o).1 = .ok record := by
  intro h
  obtain ⟨record, hw⟩ := h network built_network named_network "Station" _ _
    (read_recordOf decode_greatest) {}
  have hencode := written_scalar_iff.1
    (written_of_occurs ((occurs_loaded_iff rfl).2 rfl) (written_of_write hw))
  exact (ScalarType.Admits.float32 _).encode_iff.1 hencode ⟨rfl, false, rfl⟩

end Network

end FlatGraph
