import FlatGraph.Model.Registry
import FlatGraph.Record
import FlatGraph.Scalar.Encode
import FlatGraph.Traced

/-!
# From objects to records

Writing walks an object along the properties of its type and puts down one entry for each scalar,
each element and each reference, and a type hint for the root and for each object whose type is
not the declared one.

The walk (`outline`) depends on the registry alone. It leaves a trace of steps, from which the
record and the index definitions are made (`Step.apply`): a value of a property that is marked as
indexed defines an index in the keyspace of the root, and a value for which an index is defined
adds a fragment to the record. The definitions made before a failure remain.

* `Registry.write` is the whole of it.
-/

namespace FlatGraph

/-- What a write puts down. -/
inductive Step where
  /-- An entry of the record. -/
  | entry (key : String) (value : Bytes)
  /-- The id of the root. -/
  | identify (id : String)
  /-- A value by which entities may be found; `always` if its property is marked as indexed. -/
  | index (property : String) (always : Bool) (text : String)
deriving DecidableEq, Repr

/-- A walk over an object. -/
abbrev Walk := Traced Step Error

namespace Write

open Traced (mark fail)

/-! ## Scalars -/

/-- The text of a value that serves as an id. -/
def idText (path : String) (v : Value) : Except Error String :=
  if v.isScalar then
    match v.toText with
    | .ok text => .ok text
    | .error e => .error (.scalar e)
  else .error (.unsupported path (.notScalar v.kind))

/-- The bytes of a value of a declared type. -/
def encode (path : String) (v : Value) (type : ScalarType) : Except Error Bytes :=
  match type.encode v with
  | .ok bs => .ok bs
  | .error (.notScalar kind) => .error (.unsupported path (.notScalar kind))
  | .error e => .error (.conversion path v.shown e)

/-! ## References -/

/-- The pointer to an object: the keyspace of its type, and its id. -/
def pointer (r : Registry) (path type : String) (fields : List (String × Value)) :
    Except Error String := do
  let t ← r.get type
  let id ← match t.idProperty?.bind fun p => Fields.get? fields p.name with
    | some v => idText path v
    | none => pure ""
  if id = "" then throw (.missingId type) else pure (Path.entityKey t.keyspace id)

/-! ## Objects -/

theorem sizeOf_lt_of_lookup {fields : List (String × Value)} {name : String} {v : Value}
    (h : fields.lookup name = some v) : sizeOf v < sizeOf fields := by
  induction fields with
  | nil => simp at h
  | cons f fs ih =>
    obtain ⟨n, w⟩ := f
    rw [List.lookup_cons] at h
    split at h
    · cases h
      simp only [List.cons.sizeOf_spec, Prod.mk.sizeOf_spec]
      omega
    · have := ih h
      simp only [List.cons.sizeOf_spec]
      omega

theorem sizeOf_lt_of_get? {fields : List (String × Value)} {name : String} {v : Value}
    (h : Fields.get? fields name = some v) : sizeOf v < sizeOf fields :=
  sizeOf_lt_of_lookup (Option.filter_eq_some_iff.1 h).1

-- The measure is a number, so that a walk over a given object can be computed in a proof.
mutual

/-- Writes the values of properties that fields hold, for the object at `base`. -/
def properties (r : Registry) (root : Bool) (base : String) (fields : List (String × Value))
    (ps : List Property) : Walk Unit :=
  forM ps fun p =>
    match _h : Fields.get? fields p.name with
    | some v => property r root (Path.join base p.name) p v
    | none => pure ()
termination_by 3 * sizeOf fields
decreasing_by
  have := sizeOf_lt_of_get? _h
  omega

/-- Writes the value of a property. -/
def property (r : Registry) (root : Bool) (path : String) (p : Property) (v : Value) :
    Walk Unit :=
  if p.isId then do
    let id ← idText path v
    if root && id != "" then mark (.identify id)
    mark (.entry path (Utf8.encode id))
    mark (.index p.name p.isIndexed id)
  else match p.shape with
    | .single type => do
      element r path type p.isReference v
      match type with
      | .scalar type => do
        let bs ← encode path v type
        mark (.index p.name p.isIndexed (Utf8.lossy bs))
      | .entity _ => pure ()
    | .list type =>
      match v with
      | .list items => elements r path type p.isReference 0 items
      | v => fail (.unsupported path (.notList v.kind))
    | .map key type =>
      match v with
      | .map entries => mapEntries r path key type p.isReference entries
      | v => fail (.unsupported path (.notMap v.kind))
termination_by 3 * sizeOf v + 2

/-- Writes a value of a declared type. -/
def element (r : Registry) (path : String) (type : TypeRef) (reference : Bool) (v : Value) :
    Walk Unit :=
  match type, v with
  | _, .null => pure ()
  | .scalar type, v => do
    let bs ← encode path v type
    mark (.entry path bs)
  | .entity declared, .object type fields =>
    if reference then do
      let pointer ← pointer r path type fields
      mark (.entry path (Utf8.encode pointer))
    else do
      let t ← r.get type
      if type ≠ declared then do
        if r.isAssignable type declared then
          mark (.entry (Path.hintOf path) (Utf8.encode type))
        else fail (.unsupported path (.notAssignable type declared))
      properties r false path fields t.properties
  | .entity declared, v => fail (.unsupported path (.notObject declared v.kind))
termination_by 3 * sizeOf v + 1

/-- Writes the items of a list, the first of which has the given index. -/
def elements (r : Registry) (base : String) (type : TypeRef) (reference : Bool) (index : Nat) :
    List Value → Walk Unit
  | [] => pure ()
  | v :: vs => do
    element r (Path.element base (.ofList (Number.natText index))) type reference v
    elements r base type reference (index + 1) vs
termination_by vs => 3 * sizeOf vs

/-- Writes the entries of a map. -/
def mapEntries (r : Registry) (base : String) (key : ScalarType) (type : TypeRef)
    (reference : Bool) : List (Value × Value) → Walk Unit
  | [] => pure ()
  | (k, v) :: es => do
    let text ← encode base k key
    element r (Path.element base (Utf8.lossy text)) type reference v
    mapEntries r base key type reference es
termination_by es => 3 * sizeOf es

end

end Write

/-! ## Records -/

/-- Carries out a step of a write in a keyspace. -/
def Step.apply (keyspace : String) (s : Record × Indexes) : Step → Record × Indexes
  | .entry key value => (s.1.put key value, s.2)
  | .identify id => ({ s.1 with id := some id }, s.2)
  | .index property always text =>
    let d : IndexDefinition := ⟨keyspace, property⟩
    let ix := if always then s.2.add d else s.2
    if text != "" && ix.contains d then
      (s.1.addFragment (Path.indexFragment property text), ix)
    else (s.1, ix)

namespace Registry

/-- The walk over a root object of the given type. -/
def outline (r : Registry) (t : EntityType) (o : Object) : Walk Unit := do
  Traced.mark (.entry Path.hint (Utf8.encode o.type))
  Write.properties r true "" o.fields t.properties

/-- Writes an object; yields its record, and the index definitions after the write. -/
def write (r : Registry) (ix : Indexes) (o : Object) : Except Error Record × Indexes :=
  match r.get o.type with
  | .error e => (.error e, ix)
  | .ok t =>
    let walk := r.outline t o
    let (record, ix) := walk.trace.foldl (Step.apply t.keyspace)
      (({ keyspace := some t.keyspace } : Record), ix)
    (walk.outcome.map fun _ => record, ix)

end Registry

end FlatGraph
