import FlatGraph.Proofs.Convert.Read
import FlatGraph.Proofs.Convert.Write

/-!
# Why a write or a read fails

**Theorem (`write_own`).** A write never ends with an error of the store.

**Theorem (`read_failsWith`).** A read ends with one only if resolving a reference does, and the
pointer of that reference is a value of the record.

All other steps raise errors of their own. The values below a path are values of the record, so
that what holds of the object at a path holds of the one around it (`Blamed.of_extract`).
-/

namespace FlatGraph

open Traced (FailsWith)

/-- The error is none of the store. -/
def Error.Own (e : Error) : Prop := ∀ cause, e ≠ .store cause

theorem Registry.own_of_get {r : Registry} {name : String} {e : Error}
    (h : r.get name = .error e) : e.Own := by
  unfold Registry.get at h
  split at h <;> cases h
  exact fun _ h => by cases h

/-! ## Writes -/

namespace Write

theorem own_of_encode {path : String} {v : Value} {type : ScalarType} {e : Error}
    (h : encode path v type = .error e) : e.Own := by
  unfold encode at h
  split at h <;> cases h <;> exact fun _ h => by cases h

theorem own_of_idText {path : String} {v : Value} {e : Error} (h : idText path v = .error e) :
    e.Own := by
  unfold idText at h
  split at h
  · split at h <;> cases h
    exact fun _ h => by cases h
  · cases h
    exact fun _ h => by cases h

theorem own_of_pointer {r : Registry} {path type : String} {fields : List (String × Value)}
    {e : Error} (h : pointer r path type fields = .error e) : e.Own := by
  unfold pointer at h
  cases ht : r.get type with
  | error e' =>
    rw [ht] at h
    cases h
    exact Registry.own_of_get ht
  | ok t =>
    rw [ht] at h
    cases hv : t.idProperty?.bind fun p => Fields.get? fields p.name with
    | none =>
      simp only [hv, bind, Except.bind, pure, Except.pure] at h
      cases h
      exact fun _ h => by cases h
    | some v =>
      cases hid : idText path v with
      | error e' =>
        simp only [hv, hid, bind, Except.bind] at h
        cases h
        exact own_of_idText hid
      | ok id =>
        simp only [hv, hid, bind, Except.bind] at h
        split at h <;> cases h
        exact fun _ h => by cases h

theorem failsWith_fail {path : String} {violation : Violation} :
    FailsWith Error.Own (Traced.fail (.unsupported path violation) : Walk Unit) :=
  .fail fun _ h => by cases h

variable (r : Registry)

mutual

theorem properties_own (root : Bool) (base : String) (fields : List (String × Value))
    (ps : List Property) : FailsWith Error.Own (properties r root base fields ps) := by
  rw [properties]
  refine FailsWith.forM fun p _ => ?_
  split
  · next v hv => exact property_own root _ p v
  · exact .pure ()
termination_by (sizeOf fields, 0)
decreasing_by exact .left _ _ (sizeOf_lt_of_get? ‹_›)

theorem property_own (root : Bool) (path : String) (p : Property) (v : Value) :
    FailsWith Error.Own (property r root path p v) := by
  rw [property]
  split
  · refine (FailsWith.liftM fun e h => own_of_idText h).bind fun id _ => ?_
    have hrest : FailsWith Error.Own (do
        Traced.mark (.entry path (Utf8.encode id))
        Traced.mark (.index p.name p.isIndexed id) : Walk Unit) :=
      (FailsWith.mark _).bind fun _ _ => .mark _
    dsimp only
    split
    · exact (FailsWith.mark _).bind fun _ _ => hrest
    · exact hrest
  · match p.shape with
    | .single type =>
      refine (element_own path type p.isReference v).bind fun _ _ => ?_
      cases type with
      | scalar type =>
        exact (FailsWith.liftM fun e h => own_of_encode h).bind fun bs _ => .mark _
      | entity name => exact .pure ()
    | .list type =>
      dsimp only
      split
      · exact elements_own path type p.isReference 0 _
      · exact failsWith_fail
    | .map key type =>
      dsimp only
      split
      · exact mapEntries_own path key type p.isReference _
      · exact failsWith_fail
termination_by (sizeOf v, 1)

theorem element_own (path : String) (type : TypeRef) (reference : Bool) (v : Value) :
    FailsWith Error.Own (element r path type reference v) := by
  rw [element.eq_def]
  split
  · exact .pure ()
  · exact (FailsWith.liftM fun e h => own_of_encode h).bind fun bs _ => .mark _
  · next declared type fields =>
    split
    · exact (FailsWith.liftM fun e h => own_of_pointer h).bind fun pointer _ => .mark _
    · refine (FailsWith.liftM fun e h => Registry.own_of_get h).bind fun t _ => ?_
      have hrest := properties_own false path fields t.properties
      dsimp only
      split
      · split
        · exact (FailsWith.mark _).bind fun _ _ => hrest
        · exact failsWith_fail.bind fun _ _ => hrest
      · exact hrest
  · exact failsWith_fail
termination_by (sizeOf v, 0)

theorem elements_own (base : String) (type : TypeRef) (reference : Bool) (index : Nat)
    (vs : List Value) : FailsWith Error.Own (elements r base type reference index vs) := by
  match vs with
  | [] =>
    rw [elements]
    exact .pure ()
  | v :: vs =>
    rw [elements]
    exact (element_own _ type reference v).bind fun _ _ =>
      elements_own base type reference (index + 1) vs
termination_by (sizeOf vs, 0)

theorem mapEntries_own (base : String) (key : ScalarType) (type : TypeRef) (reference : Bool)
    (es : List (Value × Value)) :
    FailsWith Error.Own (mapEntries r base key type reference es) := by
  match es with
  | [] =>
    rw [mapEntries]
    exact .pure ()
  | (k, v) :: es =>
    rw [mapEntries]
    refine (FailsWith.liftM fun e h => own_of_encode h).bind fun text _ => ?_
    exact (element_own _ type reference v).bind fun _ _ => mapEntries_own base key type reference es
termination_by (sizeOf es, 0)

end

end Write

/-- **A write never ends with an error of the store.** -/
theorem Registry.write_own {r : Registry} {ix : Indexes} {o : Object} {e : Error}
    (h : (r.write ix o).1 = .error e) : e.Own := by
  unfold Registry.write at h
  cases ht : r.get o.type with
  | error e' =>
    rw [ht] at h
    cases h
    exact own_of_get ht
  | ok t =>
    rw [ht] at h
    have hw : FailsWith Error.Own (r.outline t o) :=
      (FailsWith.mark _).bind fun _ _ => Write.properties_own r true "" o.fields t.properties
    cases ho : (r.outline t o).outcome with
    | ok u => simp [ho, Except.map] at h
    | error e' =>
      have he : e' = e := by simpa [ho, Except.map] using h
      exact he ▸ hw e' ho

/-! ## Reads -/

namespace Read

/-- The error is none of the store, or that of resolving a reference whose pointer is a value of
the record. -/
def Blamed (resolve : Resolver) (es : Entries) (e : Error) : Prop :=
  ∀ cause, e = .store cause → ∃ x ∈ es.toList, ∃ text keyspace id type,
    Utf8.decode x.2 = .ok text ∧ Path.splitPointer? text = some (keyspace, id) ∧
      resolve ⟨id, keyspace, type⟩ = .error (.store cause)

variable {resolve : Resolver} {nested : Nested} {es : Entries}

theorem Blamed.of_own {e : Error} (h : e.Own) : Blamed resolve es e :=
  fun cause he => absurd he (h cause)

theorem exists_mem_of_extract {path : String} {x : String × Bytes}
    (hx : x ∈ (es.extract path).toList) : ∃ k, (k, x.2) ∈ es.toList := by
  have hget := Entries.get?_eq_some_iff.2 hx
  rw [Entries.get?_extract] at hget
  split at hget
  · exact ⟨_, Entries.get?_eq_some_iff.1 hget⟩
  · split at hget
    · exact ⟨_, Entries.get?_eq_some_iff.1 hget⟩
    · cases hget

/-- The values below a path are values of the record. -/
theorem Blamed.of_extract {path : String} {e : Error} (h : Blamed resolve (es.extract path) e) :
    Blamed resolve es e := by
  intro cause he
  obtain ⟨x, hx, hresolve⟩ := h cause he
  obtain ⟨k, hk⟩ := exists_mem_of_extract hx
  exact ⟨(k, x.2), hk, hresolve⟩

/-! ### Leaves -/

theorem own_of_decode {path : String} {raw : Bytes} {type : ScalarType} {e : Error}
    (h : decode path raw type = .error e) : e.Own := by
  intro cause hc
  subst hc
  unfold decode at h
  cases hd : type.decode raw <;> rw [hd] at h <;> cases h

theorem decode_failsWith (path : String) (raw : Bytes) (type : ScalarType) :
    FailsWith (Blamed resolve es) (decode path raw type : Reading (Option Value)) :=
  .liftM fun _ h => .of_own (own_of_decode h)

theorem pointer_eq_ok {path : String} {raw : Bytes} {place : String × String}
    (h : pointer path raw = .ok place) :
    ∃ text, Utf8.decode raw = .ok text ∧ Path.splitPointer? text = some place := by
  unfold pointer at h
  split at h
  · next text ht =>
    split at h
    · next hs =>
      cases h
      exact ⟨text, ht, hs⟩
    · cases h
  · cases h

theorem own_of_pointer {path : String} {raw : Bytes} {e : Error}
    (h : pointer path raw = .error e) : e.Own := by
  intro cause hc
  subst hc
  unfold pointer at h
  split at h
  · split at h <;> cases h
  · cases h

/-- Resolving a reference may end with whatever error the resolver raises. -/
theorem referent_failsWith (path type : String) {k : String} {raw : Bytes}
    (hx : (k, raw) ∈ es.toList) :
    FailsWith (Blamed resolve es) (referent resolve path type raw) := by
  refine (FailsWith.liftM fun e h => .of_own (own_of_pointer h)).bind ?_
  rintro ⟨keyspace, id⟩ hp
  obtain ⟨text, ht, hs⟩ := pointer_eq_ok hp
  refine (FailsWith.mark _).bind fun _ _ => ?_
  refine FailsWith.bind ?_ fun o _ => .pure _
  intro e he cause hc
  subst hc
  exact ⟨(k, raw), hx, text, keyspace, id, type, ht, hs, he⟩

theorem leaf_failsWith (path : String) (type : TypeRef) {k : String} {raw : Bytes}
    (hx : (k, raw) ∈ es.toList) : FailsWith (Blamed resolve es) (leaf resolve path raw type) := by
  cases type with
  | scalar type => exact decode_failsWith path raw type
  | entity type => exact referent_failsWith path type hx

/-! ### Values -/

/-- Reading an object ends with an error of the store only for a reference in it. -/
abbrev NestedBlamed (resolve : Resolver) (nested : Nested) : Prop :=
  ∀ path type es, FailsWith (Blamed resolve es) (nested path type es)

theorem inner_failsWith (h : NestedBlamed resolve nested) (path type : String) :
    FailsWith (Blamed resolve es) (inner nested path type es) := by
  unfold inner
  dsimp only
  split
  · exact .pure _
  · refine FailsWith.bind ?_ fun o _ => .pure _
    exact (h path type (es.extract path)).mono fun _ => .of_extract

theorem valueAt_failsWith (h : NestedBlamed resolve nested) (type : TypeRef) (reference : Bool)
    (path : String) :
    FailsWith (Blamed resolve es) (valueAt resolve nested type reference es path) := by
  rcases isLeaf_or_nested type reference with hl | ⟨name, rfl, rfl⟩
  · rw [valueAt_of_isLeaf hl]
    cases hg : es.get? path with
    | none => exact .pure _
    | some raw => exact leaf_failsWith path type (Entries.get?_eq_some_iff.1 hg)
  · exact inner_failsWith h path name

theorem entryValue_failsWith {value : Reading (Option Value)}
    (h : FailsWith (Blamed resolve es) value) (path : String) (key? : Option String)
    (keyType : ScalarType) :
    FailsWith (Blamed resolve es) (entryValue path key? keyType value) := by
  cases key? with
  | none => exact .pure _
  | some text =>
    refine (decode_failsWith path (Utf8.encode text) keyType).bind fun key _ => ?_
    cases key with
    | none => exact .pure _
    | some key => exact h.bind fun v _ => .pure _

theorem property_failsWith (h : NestedBlamed resolve nested) (path : String) (p : Property) :
    FailsWith (Blamed resolve es) (property resolve nested path p es) := by
  cases hs : p.shape with
  | single type =>
    rw [property_single hs]
    exact valueAt_failsWith h type p.isReference path
  | list type =>
    unfold property
    rw [hs]
    simp only [elements_eq]
    refine (FailsWith.mapM fun k _ => ?_).bind fun found _ => .pure _
    exact (valueAt_failsWith h type p.isReference k).map _
  | map key type =>
    unfold property
    rw [hs]
    simp only [mapEntries_eq]
    refine (FailsWith.mapM fun k _ => ?_).bind fun found _ => .pure _
    exact entryValue_failsWith (valueAt_failsWith h type p.isReference k) _ _ _

/-! ### Objects -/

theorem own_of_resolveType {r : Registry} {path declared : String} {e : Error}
    (h : resolveType r path declared es = .error e) : e.Own := by
  intro cause hc
  subst hc
  unfold resolveType at h
  split at h
  · exact Registry.own_of_get h cause rfl
  · split at h
    · cases h
    · split at h
      · split at h <;> cases h
      · cases h

theorem object_failsWith (r : Registry) (resolve : Resolver) (depth : Nat) :
    NestedBlamed resolve (object r resolve depth) := by
  induction depth with
  | zero =>
    intro path type es
    exact .fail (.of_own fun _ h => by cases h)
  | succ depth ih =>
    intro path type es
    refine (FailsWith.liftM fun e h => .of_own (own_of_resolveType h)).bind fun t _ => ?_
    refine FailsWith.bind (.mapM fun p _ => ?_) fun found _ => .pure _
    exact (property_failsWith ih _ p).bind fun v _ => .pure _

end Read

/-- **A read ends with an error of the store only for a reference whose pointer is a value of the
record.** -/
theorem Registry.read_failsWith (r : Registry) (resolve : Resolver) (type : String)
    (es : Entries) :
    Traced.FailsWith (Read.Blamed resolve es) (r.read resolve type es) := by
  unfold Registry.read
  split
  · exact .pure _
  · exact (Read.object_failsWith r resolve _ "" type es).bind fun o _ => .pure _

end FlatGraph
