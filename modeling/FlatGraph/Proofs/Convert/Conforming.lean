import FlatGraph.Proofs.Convert.Canonical
import FlatGraph.Proofs.Convert.Order
import FlatGraph.Proofs.Model.Registry
import FlatGraph.Proofs.Scalar.Admit

/-!
# What is read conforms to the schema

**Whatever a record holds, the object that is read from it conforms to its declared type**
(`conforms_of_read`), if no reference is resolved: its type is registered and can stand where it
is declared, its fields name properties of the type, and so on for the values inside. Entries
that do not fit are either passed over or an error.

The objects inside an object are read by the same function with less depth, so that the proof is
an induction on the depth, with one lemma for each function of the reader.
-/

namespace FlatGraph

/-! ## Conformance -/

/-- A value conforms to the schema where it stands. Lists and maps hold something, and references
are not set. -/
inductive Conforms (r : Registry) : Role → Value → Prop
  | scalar {type : ScalarType} {v : Value} (h : type.Admits v) :
      Conforms r (.element (.scalar type)) v
  | object {declared type : String} {fields : List (String × Value)} {t : EntityType}
      (ht : r.find? type = some t)
      (ha : type = declared ∨ r.isAssignable type declared = true)
      (hd : (fields.map Prod.fst).Nodup)
      (hn : ∀ f ∈ fields, ∃ p ∈ t.properties, p.name = f.1)
      (hp : ∀ f ∈ fields, ∀ p ∈ t.properties, p.name = f.1 → Conforms r (.property p) f.2) :
      Conforms r (.element (.entity declared)) (.object type fields)
  | single {p : Property} {type : TypeRef} {v : Value} (hr : p.isReference = false)
      (hs : p.shape = .single type) (h : Conforms r (.element type) v) :
      Conforms r (.property p) v
  | list {p : Property} {type : TypeRef} {items : List Value} (hr : p.isReference = false)
      (hs : p.shape = .list type) (hne : items ≠ [])
      (h : ∀ v ∈ items, Conforms r (.element type) v) : Conforms r (.property p) (.list items)
  | map {p : Property} {key : ScalarType} {type : TypeRef} {entries : List (Value × Value)}
      (hr : p.isReference = false) (hs : p.shape = .map key type) (hne : entries ≠ [])
      (hk : ∀ e ∈ entries, key.Admits e.1) (h : ∀ e ∈ entries, Conforms r (.element type) e.2) :
      Conforms r (.property p) (.map entries)

/-- Nothing that conforms is null; so there is no null in lists and maps either. -/
theorem Conforms.isNull {r : Registry} {role : Role} {v : Value} (h : Conforms r role v) :
    v.isNull = false := by
  induction h with
  | scalar h => exact h.isNull
  | object | list | map => rfl
  | single _ _ _ ih => exact ih

namespace Read

variable {r : Registry} {nested : Nested} {path : String} {es : Entries} {reference : Bool}
  {p : Property} {v : Value}

/-! ## Values -/

/-- A reader of objects yields objects that conform to the declared type. -/
def NestedConforms (r : Registry) (nested : Nested) : Prop :=
  ∀ path declared es o, (nested path declared es).outcome = .ok o →
    Conforms r (.element (.entity declared)) o.toValue

theorem referent_nothing {type : String} {raw : Bytes} {v? : Option Value}
    (h : (referent .nothing path type raw).outcome = .ok v?) : v? = none := by
  obtain ⟨_, -, h⟩ := Traced.outcome_bind_eq_ok_iff.1 h
  obtain ⟨_, -, h⟩ := Traced.outcome_bind_eq_ok_iff.1 h
  obtain ⟨o?, ho, h⟩ := Traced.outcome_bind_eq_ok_iff.1 h
  cases ho
  exact (Except.ok.inj h).symm

/-- What is read for a value is no reference, and conforms to its declared type. -/
theorem conforms_of_valueAt (hn : NestedConforms r nested) {type : TypeRef}
    (hr : reference = true → ∃ name, type = .entity name)
    (h : (valueAt .nothing nested type reference es path).outcome = .ok (some v)) :
    reference = false ∧ Conforms r (.element type) v := by
  match type, reference with
  | .scalar type, true =>
    obtain ⟨name, hname⟩ := hr rfl
    cases hname
  | .scalar type, false =>
    have hdecode := valueAt_scalar_eq_ok_iff.1 h
    split at hdecode
    · exact ⟨rfl, .scalar (ScalarType.admits_of_decode hdecode)⟩
    · cases hdecode
  | .entity name, true =>
    rw [valueAt_of_isLeaf rfl] at h
    split at h
    · cases referent_nothing h
    · cases h
  | .entity name, false =>
    have hinner := inner_eq_ok_iff.1 h
    split_ifs at hinner
    obtain ⟨o, ho, hv⟩ := hinner
    cases hv
    exact ⟨rfl, hn _ _ _ _ ho⟩

/-! ## Properties -/

section Property

variable (hn : NestedConforms r nested)
  (hr : p.isReference = true → ∃ name, p.shape.type = .entity name)
  (h : (property .nothing nested path p es).outcome = .ok (some v))

include hn hr h

/-- The items of a list are the values that are read for its elements. -/
theorem conforms_of_list {type : TypeRef} (hs : p.shape = .list type) :
    Conforms r (.property p) v := by
  rw [hs] at hr
  obtain ⟨found, hf, hv⟩ := (property_list_eq_ok_iff hs).1 h
  unfold listOf at hv
  split_ifs at hv with hempty
  cases hv
  have hitem : ∀ e ∈ found.filterMap id,
      p.isReference = false ∧ Conforms r (.element type) e.2 := fun e he => by
    obtain ⟨y, hy, hye⟩ := List.mem_filterMap.1 he
    obtain ⟨k, -, w, hw, rfl⟩ := Lists.exists_left_of_mem hf hy
    obtain ⟨w, rfl, rfl⟩ := Option.map_eq_some_iff.1 hye
    exact conforms_of_valueAt hn hr hw
  obtain ⟨e, he⟩ := List.exists_mem_of_ne_nil _ (mt List.isEmpty_iff.2 hempty)
  refine .list (hitem e he).1 hs ?_ fun w hw => ?_
  · exact List.ne_nil_of_mem (List.mem_map_of_mem (List.mem_mergeSort.2 he))
  · obtain ⟨e, he, rfl⟩ := List.mem_map.1 hw
    exact (hitem e (List.mem_mergeSort.1 he)).2

/-- The entries of a map are those whose keys and values are read. -/
theorem conforms_of_map {key : ScalarType} {type : TypeRef} (hs : p.shape = .map key type) :
    Conforms r (.property p) v := by
  rw [hs] at hr
  obtain ⟨found, hf, hv⟩ := (property_map_eq_ok_iff hs).1 h
  unfold mapOf at hv
  split_ifs at hv with hempty
  cases hv
  have hentry : ∀ e ∈ found.filterMap id,
      p.isReference = false ∧ key.Admits e.1 ∧ Conforms r (.element type) e.2 := fun e he => by
    obtain ⟨y, hy, hye⟩ := List.mem_filterMap.1 he
    cases (show y = some e from hye)
    obtain ⟨k, -, hk⟩ := Lists.exists_left_of_mem hf hy
    rcases entryValue_eq_ok_iff.1 hk with ⟨-, hnone⟩ | ⟨text, k', w, -, hd, hw, hy⟩
    · cases hnone
    · obtain ⟨w, rfl, rfl⟩ := Option.map_eq_some_iff.1 hy.symm
      obtain ⟨hr, hw⟩ := conforms_of_valueAt hn hr hw
      exact ⟨hr, ScalarType.admits_of_decode hd, hw⟩
  have hne : found.filterMap id ≠ [] := mt List.isEmpty_iff.2 hempty
  obtain ⟨e, he⟩ := List.exists_mem_of_ne_nil _ hne
  exact .map (hentry e he).1 hs hne (fun e he => (hentry e he).2.1) fun e he => (hentry e he).2.2

/-- What is read for a property conforms to its shape. -/
theorem conforms_of_property : Conforms r (.property p) v := by
  match hs : p.shape with
  | .single type =>
    rw [hs] at hr
    rw [property_single hs] at h
    obtain ⟨hr, hv⟩ := conforms_of_valueAt hn hr h
    exact .single hr hs hv
  | .list type => exact conforms_of_list hn hr h hs
  | .map key type => exact conforms_of_map hn hr h hs

end Property

/-! ## Objects -/

theorem find?_name_of_resolveType (hb : r.Built) {declared : String} {t : EntityType}
    (h : resolveType r path declared es = .ok t) :
    r.find? t.name = some t ∧ (t.name = declared ∨ r.isAssignable t.name declared = true) := by
  unfold resolveType at h
  split at h
  · have ht := Registry.get_eq_ok_iff.1 h
    rw [(hb.sound ht).1]
    exact ⟨ht, .inl rfl⟩
  · split at h
    · cases h
    · split at h
      · next ht =>
        split_ifs at h with ha
        cases h
        rw [(hb.sound ht).1]
        exact ⟨ht, .inr ha⟩
      · cases h

/-- **An object that is read at any depth conforms to its declared type.** -/
theorem conforms_of_object (hb : r.Built)
    (hu : ∀ name t, r.find? name = some t → (t.properties.map (·.name)).Nodup) (depth : Nat) :
    NestedConforms r (object r .nothing depth) := by
  induction depth with
  | zero => exact fun path declared es o h => nomatch h
  | succ depth ih =>
    intro path declared es o h
    obtain ⟨t, found, ht, hf, rfl⟩ := object_eq_ok_iff.1 h
    obtain ⟨hfind, htype⟩ := find?_name_of_resolveType hb ht
    have hread : ∀ f ∈ (assemble t.name found).fields, ∃ p ∈ t.properties, p.name = f.1 ∧
        Conforms r (.property p) f.2 := fun f hm => by
      obtain ⟨p, hp, hname, hread⟩ := Lists.exists_left_of_mem hf (mem_of_mem_assemble hm)
      have hp' : p ∈ t.properties := (List.filter_append_perm _ _).mem_iff.1 hp
      have hrules := EntityType.propertyViolation?_eq_none_iff.1
        ((hb.sound hfind).2.property p hp')
      exact ⟨p, hp', hname.symm, conforms_of_property ih hrules.2.2.1 hread⟩
    rw [Object.toValue, assemble_type]
    refine .object hfind htype (nodup_assemble _ _) (fun f hm => ?_) fun f hm q hq hname => ?_
    · obtain ⟨p, hp, hname, -⟩ := hread f hm
      exact ⟨p, hp, hname⟩
    · obtain ⟨p, hp, hname', hv⟩ := hread f hm
      rwa [List.inj_on_of_nodup_map (hu _ t hfind) hq hp (hname.trans hname'.symm)]

end Read

/-- **Whatever a record holds, what is read from it conforms to the schema.** The names of the
properties of a type have to be different, or else a field could hold what another property of its
name has stored. -/
theorem conforms_of_read {r : Registry} (hb : r.Built)
    (hu : ∀ name t, r.find? name = some t → (t.properties.map (·.name)).Nodup) {type : String}
    {es : Entries} {o : Object} (h : (r.read .nothing type es).outcome = .ok (some o)) :
    Conforms r (.element (.entity type)) o.toValue :=
  Read.conforms_of_object hb hu _ _ _ _ _ (Registry.read_eq_some_iff.1 h).2

/-! ## A network of stations -/

namespace Network

/-- The number of a station. -/
def number : Property := { name := "number", shape := .single (.scalar (.int .w32)), isId := true }

/-- The text on the sign of a station. -/
def sign : Property := { name := "sign", shape := .single (.scalar .text) }

/-- The greatest weight that a station bears. -/
def load : Property := { name := "load", shape := .single (.scalar .float32) }

/-- The date on which a station opened. -/
def opened : Property := { name := "opened", shape := .single (.scalar .date) }

/-- The numbers of the tracks of a station. -/
def tracks : Property := { name := "tracks", shape := .list (.scalar (.int .w8)) }

/-- The next stations on the lines from a station. -/
def lines : Property := { name := "lines", shape := .map .text (.entity "Station") }

/-- A station. -/
def station : EntityType where
  name := "Station"
  properties := [number, sign, load, opened, tracks, lines]

/-- At a terminal, there is a number on the sign. -/
def terminal : EntityType where
  name := "Terminal"
  parent := some "Station"
  properties := [{ sign with shape := .single (.scalar (.int .w32)) }]

/-- The registry of stations and terminals. -/
def network : Registry := ⟨[("Station", station), ("Terminal", terminal.extending station)]⟩

theorem built_network : network.Built :=
  .register (.register .empty (t := station) (by rfl)) (t := terminal) (by rfl)

theorem named_network : network.Named := .of_types (by decide)

/-- A record with entries that have no place in it, and with more than one spelling of a number. -/
def stray : Entries := Entries.empty.putAll
  [("_class", Utf8.encode "Terminal"), ("number", Utf8.encode " 7"), ("sign", Utf8.encode "+3"),
    ("name", Utf8.encode "?"), ("tracks.[z", Utf8.encode "4"), ("tracks.[0]", Utf8.encode "-1"),
    ("lines.[].sign", Utf8.encode "east"), ("lines.[a]b", Utf8.encode "west"),
    ("lines.[a].sign", Utf8.encode "north")]

/-- The terminal that is read from it. -/
def tidied : Object where
  type := "Terminal"
  fields := [("number", .integer 7), ("sign", .integer 3),
    ("tracks", .list [.integer (-1), .integer 4]),
    ("lines", .map [(.text "a", .object "Station" [("sign", .text "north")])])]

theorem read_stray : (network.read .nothing "Station" stray).outcome = .ok (some tidied) := by
  have helements : (Read.elements .nothing (Read.object network .nothing
      (network.size + stray.longestKey + 1)) "tracks" (.scalar (.int .w8)) false stray).outcome =
      .ok ([(Number.greatestWord, .integer 4), (0, .integer (-1))].map some) := by decide +kernel
  have htracks : Read.listOf ([(Number.greatestWord, .integer 4), (0, .integer (-1))].map some) =
      some (.list [.integer (-1), .integer 4]) := by
    rw [Read.listOf_map_some (by simp), Read.inOrder_of_perm (.swap _ _ []) (by decide)]
    rfl
  refine Registry.read_eq_some_iff.2 ⟨by decide, Read.object_eq_ok_iff.2
    ⟨terminal.extending station, [("number", some (.integer 7)), ("sign", some (.integer 3)),
      ("load", none), ("opened", none), ("tracks", _),
      ("lines", some (.map [(.text "a", .object "Station" [("sign", .text "north")])]))],
      ?type, .cons ⟨rfl, ?number⟩ (.cons ⟨rfl, ?sign⟩ (.cons ⟨rfl, ?load⟩ (.cons ⟨rfl, ?opened⟩
        (.cons ⟨rfl, (Read.property_list_eq_ok_iff_elements rfl).2 ⟨_, helements, htracks.symm⟩⟩
          (.cons ⟨rfl, ?lines⟩ .nil))))), rfl⟩⟩
  all_goals decide +kernel

/-- The terminal can stand for a station. -/
theorem conforms_tidied : Conforms network (.element (.entity "Station")) tidied.toValue :=
  conforms_of_read built_network named_network.distinct read_stray

end Network

end FlatGraph
