import FlatGraph.Convert.Write
import FlatGraph.Proofs.Entries
import FlatGraph.Proofs.Model.Registry
import FlatGraph.Proofs.Text.Utf8
import FlatGraph.Proofs.Traced
import FlatGraph.Proofs.Value

/-!
# What a write leaves

A walk that succeeds leaves a list of pairs (`Leaves`), which are put into the record one after
another. The list is the concatenation of what the parts of the walk leave, so that each function
of the walk has one equation here, and nothing else about the walk is needed.

* `write_entries_iff` reduces a write to what its walk leaves.
* `region_of_leaves_element`: what is left for a value lies in the region of its path.
-/

namespace FlatGraph

/-! ## Steps -/

/-- The pairs among the steps of a walk. -/
def Step.pairs (steps : List Step) : List (String × Bytes) :=
  steps.filterMap fun
    | .entry key value => some (key, value)
    | _ => none

theorem Step.pairs_append (as bs : List Step) : pairs (as ++ bs) = pairs as ++ pairs bs :=
  List.filterMap_append

theorem Step.entries_foldl_apply (keyspace : String) (steps : List Step) :
    ∀ (record : Record) (ix : Indexes),
      (steps.foldl (Step.apply keyspace) (record, ix)).1.entries =
        record.entries.putAll (pairs steps) := by
  induction steps with
  | nil => intro record ix; rfl
  | cons step steps ih =>
    intro record ix
    rw [List.foldl_cons]
    cases step with
    | entry key value => exact ih _ _
    | identify id => exact ih _ _
    | index property always text =>
      have : (Step.apply keyspace (record, ix) (.index property always text)).1.entries =
          record.entries := by
        simp only [Step.apply]
        split <;> split <;> rfl
      rw [ih, this]
      rfl

theorem Step.keyspace_foldl_apply (keyspace : String) (steps : List Step) :
    ∀ (record : Record) (ix : Indexes),
      (steps.foldl (Step.apply keyspace) (record, ix)).1.keyspace = record.keyspace := by
  induction steps with
  | nil => intro record ix; rfl
  | cons step steps ih =>
    intro record ix
    rw [List.foldl_cons, ih]
    cases step with
    | entry key value => rfl
    | identify id => rfl
    | index property always text =>
      simp only [Step.apply]
      split <;> split <;> rfl

namespace Write

open FlatGraph.Path (Below Within)

/-- The walk succeeds, and puts down these pairs. -/
def Leaves (w : Walk Unit) (xs : List (String × Bytes)) : Prop :=
  w.outcome = .ok () ∧ Step.pairs w.trace = xs

theorem leaves_pure_iff {xs : List (String × Bytes)} : Leaves (pure ()) xs ↔ xs = [] := by
  simp [Leaves, Step.pairs, eq_comm]

theorem leaves_fail {e : Error} {xs : List (String × Bytes)} : ¬ Leaves (Traced.fail e) xs :=
  fun h => by cases h.1

theorem leaves_entry_iff {key : String} {value : Bytes} {xs : List (String × Bytes)} :
    Leaves (Traced.mark (.entry key value)) xs ↔ xs = [(key, value)] := by
  simp [Leaves, Traced.mark, Step.pairs, eq_comm]

theorem leaves_identify_iff {id : String} {xs : List (String × Bytes)} :
    Leaves (Traced.mark (.identify id)) xs ↔ xs = [] := by
  simp [Leaves, Traced.mark, Step.pairs, eq_comm]

theorem leaves_index_iff {property text : String} {always : Bool} {xs : List (String × Bytes)} :
    Leaves (Traced.mark (.index property always text)) xs ↔ xs = [] := by
  simp [Leaves, Traced.mark, Step.pairs, eq_comm]

theorem leaves_bind_iff {v : Walk Unit} {w : Unit → Walk Unit} {xs : List (String × Bytes)} :
    Leaves (v >>= w) xs ↔ ∃ ys zs, Leaves v ys ∧ Leaves (w ()) zs ∧ xs = ys ++ zs := by
  constructor
  · rintro ⟨ho, rfl⟩
    obtain ⟨⟨⟩, hv, hw⟩ := Traced.outcome_bind_eq_ok_iff.1 ho
    exact ⟨_, _, ⟨hv, rfl⟩, ⟨hw, rfl⟩, by rw [Traced.trace_bind_of_ok hv, Step.pairs_append]⟩
  · rintro ⟨_, _, ⟨hv, rfl⟩, ⟨hw, rfl⟩, rfl⟩
    exact ⟨Traced.outcome_bind_eq_ok_iff.2 ⟨(), hv, hw⟩, by
      rw [Traced.trace_bind_of_ok hv, Step.pairs_append]⟩

theorem leaves_lift_bind_iff {α : Type} {x : Except Error α} {w : α → Walk Unit}
    {xs : List (String × Bytes)} :
    Leaves ((liftM x : Walk α) >>= w) xs ↔ ∃ a, x = .ok a ∧ Leaves (w a) xs := by
  constructor
  · rintro ⟨ho, rfl⟩
    obtain ⟨a, ha, hw⟩ := Traced.outcome_bind_eq_ok_iff.1 ho
    exact ⟨a, ha, hw, by rw [Traced.trace_bind_of_ok ha]; rfl⟩
  · rintro ⟨a, rfl, hw, rfl⟩
    exact ⟨Traced.outcome_bind_eq_ok_iff.2 ⟨a, rfl, hw⟩, by
      rw [Traced.trace_bind_of_ok (Traced.outcome_liftM (.ok a))]; rfl⟩

theorem leaves_ite_iff {c : Prop} [Decidable c] {v w : Walk Unit} {xs : List (String × Bytes)} :
    Leaves (if c then v else w) xs ↔ if c then Leaves v xs else Leaves w xs := by
  split <;> rfl

/-! ## Scalars -/

theorem encode_eq_ok_iff {path : String} {v : Value} {type : ScalarType} {bs : Bytes} :
    encode path v type = .ok bs ↔ type.encode v = .ok bs := by
  unfold encode
  split <;> simp_all

theorem idText_eq_ok_iff {path : String} {v : Value} {id : String} :
    idText path v = .ok id ↔ v.isScalar = true ∧ v.toText = .ok id := by
  unfold idText
  cases v.isScalar <;> cases v.toText <;> simp

/-! ## Objects -/

/-- What is left for the value of a property that an object may have. -/
def LeavesAt (r : Registry) (root : Bool) (path : String) (p : Property) (v? : Option Value)
    (xs : List (String × Bytes)) : Prop :=
  match v? with
  | some v => Leaves (property r root path p v) xs
  | none => xs = []

variable {r : Registry} {root reference : Bool} {base path : String} {p : Property}
  {ps : List Property} {fields : List (String × Value)} {xs : List (String × Bytes)}

theorem properties_nil : properties r root base fields [] = pure () := by
  rw [properties, List.forM_nil]

theorem leaves_properties_nil_iff : Leaves (properties r root base fields []) xs ↔ xs = [] := by
  rw [properties_nil, leaves_pure_iff]

theorem properties_cons_of_some {v : Value} (h : Fields.get? fields p.name = some v) :
    properties r root base fields (p :: ps) =
      property r root (Path.join base p.name) p v >>= fun _ =>
        properties r root base fields ps := by
  rw [properties, List.forM_cons, properties]
  congr 1
  split
  · next w hw =>
    rw [h] at hw
    cases hw
    rfl
  · next hw =>
    rw [h] at hw
    cases hw

theorem properties_cons_of_none (h : Fields.get? fields p.name = none) :
    properties r root base fields (p :: ps) = properties r root base fields ps := by
  rw [properties, List.forM_cons, properties]
  split
  · next w hw =>
    rw [h] at hw
    cases hw
  · exact pure_bind _ _

theorem leaves_properties_cons_iff :
    Leaves (properties r root base fields (p :: ps)) xs ↔
      ∃ ys zs, LeavesAt r root (Path.join base p.name) p (Fields.get? fields p.name) ys ∧
        Leaves (properties r root base fields ps) zs ∧ xs = ys ++ zs := by
  cases hv : Fields.get? fields p.name with
  | some v =>
    rw [properties_cons_of_some hv, leaves_bind_iff]
    rfl
  | none =>
    rw [properties_cons_of_none hv]
    constructor
    · exact fun h => ⟨[], xs, rfl, h, rfl⟩
    · rintro ⟨_, zs, rfl, h, rfl⟩
      exact h

/-! ## Properties -/

theorem leaves_property_of_isId {v : Value} (h : p.isId = true) :
    Leaves (property r root path p v) xs ↔
      ∃ id, idText path v = .ok id ∧ xs = [(path, Utf8.encode id)] := by
  rw [property, if_pos h, leaves_lift_bind_iff]
  refine exists_congr fun id => and_congr_right fun _ => ?_
  simp only [leaves_bind_iff, leaves_ite_iff, leaves_identify_iff, leaves_entry_iff,
    leaves_index_iff]
  simp

/-- What is left for a scalar. -/
theorem leaves_element_scalar_iff {type : ScalarType} {v : Value} (h : v.isNull = false) :
    Leaves (element r path (.scalar type) reference v) xs ↔
      ∃ bs, encode path v type = .ok bs ∧ xs = [(path, bs)] := by
  have hne : v ≠ .null := fun h' => by simp [h', Value.isNull] at h
  rw [element.eq_def]
  cases v with
  | null => exact absurd rfl hne
  | _ => simp only [leaves_lift_bind_iff, leaves_entry_iff]

theorem leaves_element_null_iff {type : TypeRef} :
    Leaves (element r path type reference .null) xs ↔ xs = [] := by
  rw [element.eq_def, leaves_pure_iff]

/-- The value of a property that holds one is written as any value of its type. -/
theorem leaves_property_single_iff {v : Value} {type : TypeRef} (hid : p.isId = false)
    (hs : p.shape = .single type) :
    Leaves (property r root path p v) xs ↔
      Leaves (element r path type p.isReference v) xs := by
  rw [property, if_neg (by simp [hid]), hs]
  cases type with
  | entity name =>
    simp only [leaves_bind_iff, leaves_pure_iff]
    simp
  | scalar type =>
    simp only [leaves_bind_iff, leaves_lift_bind_iff, leaves_index_iff]
    constructor
    · rintro ⟨_, _, h, ⟨_, _, rfl⟩, rfl⟩
      rwa [List.append_nil]
    · intro h
      have henc : ∃ bs, encode path v type = .ok bs := by
        by_cases hv : v.isNull = true
        · rw [Value.eq_null_of_isNull hv]
          exact ⟨[], rfl⟩
        · obtain ⟨bs, hb, -⟩ := (leaves_element_scalar_iff (by simpa using hv)).1 h
          exact ⟨bs, hb⟩
      obtain ⟨bs, hb⟩ := henc
      exact ⟨xs, [], h, ⟨bs, hb, rfl⟩, (List.append_nil xs).symm⟩

theorem leaves_property_list_iff {v : Value} {type : TypeRef} (hid : p.isId = false)
    (hs : p.shape = .list type) :
    Leaves (property r root path p v) xs ↔
      ∃ items, v = .list items ∧ Leaves (elements r path type p.isReference 0 items) xs := by
  rw [property, if_neg (by simp [hid]), hs]
  cases v <;> simp [leaves_fail]

theorem leaves_property_map_iff {v : Value} {key : ScalarType} {type : TypeRef}
    (hid : p.isId = false) (hs : p.shape = .map key type) :
    Leaves (property r root path p v) xs ↔
      ∃ entries, v = .map entries ∧
        Leaves (mapEntries r path key type p.isReference entries) xs := by
  rw [property, if_neg (by simp [hid]), hs]
  cases v <;> simp [leaves_fail]

/-! ## Elements -/

theorem leaves_reference_iff {declared : String} {v : Value} (h : v.isNull = false) :
    Leaves (element r path (.entity declared) true v) xs ↔
      ∃ type fields s, v = .object type fields ∧ pointer r path type fields = .ok s ∧
        xs = [(path, Utf8.encode s)] := by
  rw [element.eq_def]
  cases v with
  | null => cases h
  | object type fields =>
    simp only [if_true, leaves_lift_bind_iff, leaves_entry_iff]
    simp [and_assoc]
  | _ => simp [leaves_fail]

/-- The type hint of an object: there is one if its type is not the declared one. -/
def hints (path type declared : String) : List (String × Bytes) :=
  if type = declared then [] else [(Path.hintOf path, Utf8.encode type)]

theorem fst_of_mem_hints {type declared : String} {x : String × Bytes}
    (h : x ∈ hints path type declared) : x.1 = Path.hintOf path := by
  unfold hints at h
  split_ifs at h
  · cases h
  · rw [List.mem_singleton.1 h]

/-- An object inside another is written if it may stand where it is. It leaves its type hint and
what its properties leave. -/
theorem leaves_nested_iff {declared : String} {v : Value} (h : v.isNull = false) :
    Leaves (element r path (.entity declared) false v) xs ↔
      ∃ type fields t ys, v = .object type fields ∧ r.find? type = some t ∧
        (type = declared ∨ r.isAssignable type declared = true) ∧
        Leaves (properties r false path fields t.properties) ys ∧
        xs = hints path type declared ++ ys := by
  rw [element.eq_def]
  cases v with
  | null => cases h
  | object type fields =>
    simp only [Bool.false_eq_true, if_false, leaves_lift_bind_iff, Value.object.injEq]
    simp only [Registry.get_eq_ok_iff, ne_eq, ite_not]
    by_cases hd : type = declared
    · simp [hd, hints]
    · by_cases ha : r.isAssignable type declared = true
      · simp [hd, ha, hints, leaves_bind_iff, leaves_entry_iff]
      · simp [hd, ha, leaves_bind_iff, leaves_fail]
  | _ => simp [leaves_fail]

/-! ## Lists and maps -/

theorem leaves_elements_nil_iff {type : TypeRef} {i : Nat} :
    Leaves (elements r base type reference i []) xs ↔ xs = [] := by
  rw [elements, leaves_pure_iff]

theorem leaves_elements_cons_iff {type : TypeRef} {i : Nat} {v : Value} {vs : List Value} :
    Leaves (elements r base type reference i (v :: vs)) xs ↔
      ∃ ys zs,
        Leaves (element r (Path.element base (.ofList (Number.natText i))) type reference v) ys ∧
        Leaves (elements r base type reference (i + 1) vs) zs ∧ xs = ys ++ zs := by
  rw [elements, leaves_bind_iff]

theorem leaves_mapEntries_nil_iff {key : ScalarType} {type : TypeRef} :
    Leaves (mapEntries r base key type reference []) xs ↔ xs = [] := by
  rw [mapEntries, leaves_pure_iff]

theorem leaves_mapEntries_cons_iff {key : ScalarType} {type : TypeRef} {k v : Value}
    {es : List (Value × Value)} :
    Leaves (mapEntries r base key type reference ((k, v) :: es)) xs ↔
      ∃ text, encode base k key = .ok text ∧
        ∃ ys zs, Leaves (element r (Path.element base (Utf8.lossy text)) type reference v) ys ∧
          Leaves (mapEntries r base key type reference es) zs ∧ xs = ys ++ zs := by
  rw [mapEntries, leaves_lift_bind_iff]
  exact exists_congr fun _ => and_congr_right fun _ => leaves_bind_iff

/-! ## Parts -/

/-- An object leaves what its properties leave. -/
theorem leaves_properties_iff :
    Leaves (properties r root base fields ps) xs ↔
      ∃ parts, List.Forall₂ (fun p ys =>
          LeavesAt r root (Path.join base p.name) p (Fields.get? fields p.name) ys) ps parts ∧
        xs = parts.flatten := by
  induction ps generalizing xs with
  | nil => simp [leaves_properties_nil_iff]
  | cons p ps ih =>
    rw [leaves_properties_cons_iff]
    simp only [ih, List.forall₂_cons_left_iff]
    constructor
    · rintro ⟨ys, _, hy, ⟨parts, hp, rfl⟩, rfl⟩
      exact ⟨_, ⟨ys, parts, hy, hp, rfl⟩, rfl⟩
    · rintro ⟨_, ⟨ys, parts, hy, hp, rfl⟩, rfl⟩
      exact ⟨ys, _, hy, ⟨parts, hp, rfl⟩, rfl⟩

/-- A list leaves what its items leave, each at its index. -/
theorem leaves_elements_iff {type : TypeRef} {i : Nat} {vs : List Value} :
    Leaves (elements r base type reference i vs) xs ↔
      ∃ parts, List.Forall₂ (fun (v : Value × Nat) ys =>
          Leaves (element r (Path.element base (.ofList (Number.natText v.2))) type reference v.1)
            ys) (vs.zipIdx i) parts ∧
        xs = parts.flatten := by
  induction vs generalizing xs i with
  | nil => simp [leaves_elements_nil_iff]
  | cons v vs ih =>
    rw [leaves_elements_cons_iff]
    simp only [ih, List.zipIdx_cons, List.forall₂_cons_left_iff]
    constructor
    · rintro ⟨ys, _, hy, ⟨parts, hp, rfl⟩, rfl⟩
      exact ⟨_, ⟨ys, parts, hy, hp, rfl⟩, rfl⟩
    · rintro ⟨_, ⟨ys, parts, hy, hp, rfl⟩, rfl⟩
      exact ⟨ys, _, hy, ⟨parts, hp, rfl⟩, rfl⟩

/-- A map leaves what its values leave, each at the text of its key. -/
theorem leaves_mapEntries_iff {key : ScalarType} {type : TypeRef} {es : List (Value × Value)} :
    Leaves (mapEntries r base key type reference es) xs ↔
      ∃ parts, List.Forall₂ (fun (e : Value × Value) ys => ∃ text, encode base e.1 key = .ok text ∧
          Leaves (element r (Path.element base (Utf8.lossy text)) type reference e.2) ys) es parts ∧
        xs = parts.flatten := by
  induction es generalizing xs with
  | nil => simp [leaves_mapEntries_nil_iff]
  | cons e es ih =>
    obtain ⟨k, v⟩ := e
    rw [leaves_mapEntries_cons_iff]
    simp only [ih, List.forall₂_cons_left_iff]
    constructor
    · rintro ⟨text, ht, ys, _, hy, ⟨parts, hp, rfl⟩, rfl⟩
      exact ⟨_, ⟨ys, parts, ⟨text, ht, hy⟩, hp, rfl⟩, rfl⟩
    · rintro ⟨_, ⟨ys, parts, ⟨text, ht, hy⟩, hp, rfl⟩, rfl⟩
      exact ⟨text, ht, ys, _, hy, ⟨parts, hp, rfl⟩, rfl⟩

/-! ## Regions -/

/-- All keys of the pairs lie at or below a path. -/
def Region (path : String) (xs : List (String × Bytes)) : Prop := ∀ x ∈ xs, Within path x.1

theorem region_nil {path : String} : Region path [] := fun _ h => nomatch h

theorem region_singleton {path : String} {bs : Bytes} : Region path [(path, bs)] :=
  fun x hx => by
    rw [List.mem_singleton.1 hx]
    exact .inl rfl

theorem Region.append {path : String} {xs ys : List (String × Bytes)} (hx : Region path xs)
    (hy : Region path ys) : Region path (xs ++ ys) :=
  fun x h => (List.mem_append.1 h).elim (hx x) (hy x)

/-- A region lies inside another if its path does. -/
theorem Region.of_below {path below : String} {xs : List (String × Bytes)} (h : Region below xs)
    (hb : Below path below) : Region path xs :=
  fun x hx => .inr (hb.trans_within (h x hx))

theorem region_hints {type declared : String} (hp : path ≠ "") :
    Region path (hints path type declared) := by
  unfold hints
  split
  · exact region_nil
  · exact region_singleton.of_below (Path.below_hintOf hp)

mutual

/-- The properties of an object inside another leave pairs below its path. -/
theorem region_of_leaves_properties (r : Registry) (root : Bool) (base : String)
    (fields : List (String × Value)) (ps : List Property) (xs : List (String × Bytes))
    (hb : base ≠ "") (h : Leaves (properties r root base fields ps) xs) :
    Region base xs := by
  match ps with
  | [] =>
    rw [leaves_properties_nil_iff.1 h]
    exact region_nil
  | p :: ps =>
    obtain ⟨ys, zs, hy, hz, rfl⟩ := leaves_properties_cons_iff.1 h
    refine Region.append ?_ (region_of_leaves_properties r root base fields ps zs hb hz)
    match hv : Fields.get? fields p.name, hy with
    | none, hy =>
      rw [show ys = [] from hy]
      exact region_nil
    | some v, hy =>
      have hbelow := Path.below_join hb p.name
      have hne : Path.join base p.name ≠ "" := Path.join_ne_empty_of_base hb
      exact (region_of_leaves_property r root _ p v ys hne hy).of_below hbelow
termination_by (sizeOf fields, ps.length)
decreasing_by
  · exact .left _ _ (sizeOf_lt_of_get? ‹_›)
  · exact .right _ (Nat.lt_succ_self _)

/-- A property leaves pairs in the region of its path. -/
theorem region_of_leaves_property (r : Registry) (root : Bool) (path : String) (p : Property)
    (v : Value) (xs : List (String × Bytes)) (hp : path ≠ "")
    (h : Leaves (property r root path p v) xs) : Region path xs := by
  by_cases hid : p.isId = true
  · obtain ⟨id, -, rfl⟩ := (leaves_property_of_isId hid).1 h
    exact region_singleton
  rw [Bool.not_eq_true] at hid
  match hs : p.shape with
  | .single type =>
    exact region_of_leaves_element r path _ _ v xs hp ((leaves_property_single_iff hid hs).1 h)
  | .list type =>
    obtain ⟨items, rfl, hl⟩ := (leaves_property_list_iff hid hs).1 h
    exact region_of_leaves_elements r path _ _ 0 items xs hl
  | .map key type =>
    obtain ⟨entries, rfl, hl⟩ := (leaves_property_map_iff hid hs).1 h
    exact region_of_leaves_mapEntries r path _ _ _ entries xs hl
termination_by (sizeOf v, 1)

/-- A value leaves pairs in the region of its path. -/
theorem region_of_leaves_element (r : Registry) (path : String) (type : TypeRef)
    (reference : Bool) (v : Value) (xs : List (String × Bytes)) (hp : path ≠ "")
    (h : Leaves (element r path type reference v) xs) : Region path xs := by
  by_cases hv : v.isNull = true
  · rw [Value.eq_null_of_isNull hv] at h
    rw [leaves_element_null_iff.1 h]
    exact region_nil
  rw [Bool.not_eq_true] at hv
  match type, reference with
  | .scalar type, _ =>
    obtain ⟨bs, -, rfl⟩ := (leaves_element_scalar_iff hv).1 h
    exact region_singleton
  | .entity declared, true =>
    obtain ⟨_, _, _, -, -, rfl⟩ := (leaves_reference_iff hv).1 h
    exact region_singleton
  | .entity declared, false =>
    obtain ⟨type, fields, t, ys, rfl, -, -, hy, rfl⟩ := (leaves_nested_iff hv).1 h
    exact (region_hints hp).append (region_of_leaves_properties r false path fields _ ys hp hy)
termination_by (sizeOf v, 0)

/-- The items of a list leave pairs below its path. -/
theorem region_of_leaves_elements (r : Registry) (path : String) (type : TypeRef)
    (reference : Bool) (i : Nat) (vs : List Value) (xs : List (String × Bytes))
    (h : Leaves (elements r path type reference i vs) xs) : Region path xs := by
  match vs with
  | [] =>
    rw [leaves_elements_nil_iff.1 h]
    exact region_nil
  | v :: vs =>
    obtain ⟨ys, zs, hy, hz, rfl⟩ := leaves_elements_cons_iff.1 h
    have hv := region_of_leaves_element r _ type reference v ys (Path.element_ne_empty _ _) hy
    exact (hv.of_below (Path.below_element _ _)).append
      (region_of_leaves_elements r path type reference (i + 1) vs zs hz)
termination_by (sizeOf vs, 0)

/-- The entries of a map leave pairs below its path. -/
theorem region_of_leaves_mapEntries (r : Registry) (path : String) (key : ScalarType)
    (type : TypeRef) (reference : Bool) (es : List (Value × Value)) (xs : List (String × Bytes))
    (h : Leaves (mapEntries r path key type reference es) xs) : Region path xs := by
  match es with
  | [] =>
    rw [leaves_mapEntries_nil_iff.1 h]
    exact region_nil
  | (k, v) :: es =>
    obtain ⟨text, -, ys, zs, hy, hz, rfl⟩ := leaves_mapEntries_cons_iff.1 h
    have hv := region_of_leaves_element r _ type reference v ys (Path.element_ne_empty _ _) hy
    exact (hv.of_below (Path.below_element _ _)).append
      (region_of_leaves_mapEntries r path key type reference es zs hz)
termination_by (sizeOf es, 0)

end

theorem region_of_leavesAt {v? : Option Value} (hp : path ≠ "")
    (h : LeavesAt r root path p v? xs) : Region path xs := by
  cases v? with
  | none =>
    rw [show xs = [] from h]
    exact region_nil
  | some v => exact region_of_leaves_property r root path p v xs hp h

/-! ## Inclusion -/

open Traced (Includes includes_first includes_bind)

/-- A walk leaves what a walk that it includes leaves. -/
theorem Leaves.of_includes {v w : Walk Unit} (h : Includes v w) (hv : Leaves v xs) :
    ∃ ys, Leaves w ys ∧ ys ⊆ xs := by
  obtain ⟨⟨⟨⟩, hw⟩, hsub⟩ := h () hv.1
  refine ⟨_, ⟨hw, rfl⟩, ?_⟩
  rw [← hv.2]
  exact List.filterMap_subset _ hsub

/-- A walk over an object includes one over each of its values. -/
theorem properties_includes {v : Value} (hp : p ∈ ps) (hv : Fields.get? fields p.name = some v) :
    Includes (properties r root base fields ps) (property r root (Path.join base p.name) p v) := by
  induction ps with
  | nil => cases hp
  | cons q ps ih =>
    cases hq : Fields.get? fields q.name with
    | none =>
      rw [properties_cons_of_none hq]
      rcases List.mem_cons.1 hp with rfl | hp
      · cases hq.symm.trans hv
      · exact ih hp
    | some w =>
      rw [properties_cons_of_some hq]
      rcases List.mem_cons.1 hp with rfl | hp
      · cases hq.symm.trans hv
        exact includes_first _ _
      · exact includes_bind fun _ _ => ih hp

theorem element_includes {declared type : String} {t : EntityType} (ht : r.find? type = some t) :
    Includes (element r path (.entity declared) false (.object type fields))
      (properties r false path fields t.properties) := by
  rw [element.eq_def]
  refine includes_bind fun t' ht' => ?_
  cases ht.symm.trans (Registry.get_eq_ok_iff.1 ht')
  dsimp only
  split
  · split <;> exact includes_bind fun _ _ => .refl _
  · exact .refl _

theorem property_includes {v : Value} {type : TypeRef} (hid : p.isId = false)
    (hs : p.shape = .single type) :
    Includes (property r root path p v) (element r path type p.isReference v) := by
  rw [property, if_neg (by simp [hid]), hs]
  exact includes_first _ _

/-- A walk over a list includes one over each item. -/
theorem elements_includes {type : TypeRef} {index i : Nat} {vs : List Value} {v : Value}
    (hi : vs[i]? = some v) :
    Includes (elements r base type reference index vs)
      (element r (Path.element base (.ofList (Number.natText (index + i)))) type reference v) := by
  induction vs generalizing index i with
  | nil => cases hi
  | cons w vs ih =>
    rw [elements]
    cases i with
    | zero =>
      cases hi
      exact includes_first _ _
    | succ i =>
      rw [← Nat.add_assoc, Nat.add_right_comm]
      exact includes_bind fun _ _ => ih hi

/-- A walk over a map includes one over each value, at the text of its key. -/
theorem mapEntries_includes {key : ScalarType} {type : TypeRef} {es : List (Value × Value)}
    {e : Value × Value} {bs : Bytes} (he : e ∈ es) (hb : key.encode e.1 = .ok bs) :
    Includes (mapEntries r base key type reference es)
      (element r (Path.element base (Utf8.lossy bs)) type reference e.2) := by
  induction es with
  | nil => cases he
  | cons e' es ih =>
    rw [mapEntries]
    refine includes_bind fun bs' hb' => ?_
    rcases List.mem_cons.1 he with rfl | he
    · cases hb.symm.trans (encode_eq_ok_iff.1 hb')
      exact includes_first _ _
    · exact includes_bind fun _ _ => ih he

/-! ## Records -/

theorem leaves_outline_iff {t : EntityType} {o : Object} :
    Leaves (r.outline t o) xs ↔
      ∃ ys, Leaves (properties r true "" o.fields t.properties) ys ∧
        xs = (Path.hint, Utf8.encode o.type) :: ys := by
  rw [Registry.outline, leaves_bind_iff]
  simp [leaves_entry_iff]

/-- **A write succeeds exactly if its walk does, and its record holds what the walk leaves.** -/
theorem write_entries_iff {ix : Indexes} {o : Object} {es : Entries} :
    (∃ record, (r.write ix o).1 = .ok record ∧ record.entries = es) ↔
      ∃ t xs, r.find? o.type = some t ∧ Leaves (r.outline t o) xs ∧
        es = Entries.empty.putAll xs := by
  unfold Registry.write Registry.get
  cases r.find? o.type with
  | none => simp
  | some t =>
    have hrun := Step.entries_foldl_apply t.keyspace (r.outline t o).trace
      { keyspace := some t.keyspace } ix
    simp only [Leaves, Option.some.injEq]
    cases ho : (r.outline t o).outcome with
    | error e => simp [Except.map, ho]
    | ok u => simp [Except.map, ho, hrun, eq_comm]

end Write

/-- What a write makes of its walk. -/
theorem Registry.write_of_outline {r : Registry} {ix : Indexes} {o : Object} {t : EntityType}
    {w : Walk Unit} (ht : r.find? o.type = some t) (hw : r.outline t o = w) :
    r.write ix o =
      (w.outcome.map fun _ =>
          (w.trace.foldl (Step.apply t.keyspace) ({ keyspace := some t.keyspace }, ix)).1,
        (w.trace.foldl (Step.apply t.keyspace) ({ keyspace := some t.keyspace }, ix)).2) := by
  rw [Registry.write, Registry.get, ht]
  show ((r.outline t o).outcome.map fun _ => _, _) = _
  rw [hw]

/-- The record of an object has the keyspace of its type. -/
theorem Registry.keyspace_of_write {r : Registry} {ix : Indexes} {o : Object} {record : Record}
    (h : (r.write ix o).1 = .ok record) :
    ∃ t, r.find? o.type = some t ∧ record.keyspace = some t.keyspace := by
  unfold Registry.write Registry.get at h
  cases ht : r.find? o.type with
  | none => simp [ht] at h
  | some t =>
    have hrun := Step.keyspace_foldl_apply t.keyspace (r.outline t o).trace
      { keyspace := some t.keyspace } ix
    refine ⟨t, rfl, ?_⟩
    cases ho : (r.outline t o).outcome with
    | error e => simp [ht, ho, Except.map] at h
    | ok u =>
      have he := by simpa [ht, ho, Except.map] using h
      rw [← he]
      exact hrun

/-- There is something in the record of an object: the name of its type, at least. -/
theorem Registry.size_ne_zero_of_write {r : Registry} (hn : r.NoEmptyType) {ix : Indexes}
    {o : Object} {record : Record} (h : (r.write ix o).1 = .ok record) :
    record.entries.size ≠ 0 := by
  obtain ⟨t, xs, ht, hl, hes⟩ := Write.write_entries_iff.1 ⟨record, h, rfl⟩
  obtain ⟨ys, -, rfl⟩ := Write.leaves_outline_iff.1 hl
  intro h0
  have hhint := Entries.size_eq_zero_iff.1 h0 Path.hint
  rw [hes, Entries.get?_putAll, ← List.singleton_append, Entries.lastOf_append,
    Entries.lastOf_singleton, if_pos ⟨rfl, by decide, mt Utf8.encode_eq_nil_iff.1 (hn _ t ht)⟩]
    at hhint
  simp at hhint

end FlatGraph
