import FlatGraph.Json.Printer
import FlatGraph.Model.Registry
import FlatGraph.Record
import FlatGraph.Scalar.Decode
import FlatGraph.Scalar.Encode

/-!
# Documents

A document is the JSON form of an object: its members are the values of the properties, and the
member `_class` names the type, if it is not the declared one. Scalars are given as strings,
numbers or truth values, whose text is read as the declared type. A reference may be given as the
id alone. Members that name no property are passed over.

* `Document.object` reads a document as an object of a type.
* `Value.toJson` writes a value; every object carries its type.
* `Record.ofJson` reads a record that is given as a JSON object of scalars.
-/

namespace FlatGraph

open FlatGraph.Number (Floating binary64)

/-! ## Writing -/

/-- A number as a JSON value; what is infinite or no number is null. -/
def Json.ofFloating (x : Floating binary64) : Json :=
  if x.isFinite then .number (.floating x) else .null

mutual

/-- The JSON form of a value. Keys of maps that are no scalars have no text. -/
def Value.toJson : Value → Json
  | .null => .null
  | .bool b => .bool b
  | .integer n => .number (.integer n.toInt)
  | .float x => .ofFloating x
  | .text s | .enum s => .string s
  | .bytes bs => .string (Utf8.lossy bs)
  | .date t => .string t.timestamp
  | .list items => .array (Value.itemsToJson items)
  | .map entries => .ofMembers (Value.entriesToJson entries)
  | .object type fields =>
    .ofMembers ((Path.hint, .string type) :: Value.fieldsToJson fields)
termination_by structural v => v

/-- The JSON forms of the items of a list. -/
def Value.itemsToJson : List Value → List Json
  | [] => []
  | v :: vs => v.toJson :: Value.itemsToJson vs
termination_by structural vs => vs

/-- The members that stand for the entries of a map. -/
def Value.entriesToJson : List (Value × Value) → List (String × Json)
  | [] => []
  | (k, v) :: es => (k.toText.toOption.getD "", v.toJson) :: Value.entriesToJson es
termination_by structural es => es

/-- The members that stand for the fields that hold a value. -/
def Value.fieldsToJson : List (String × Value) → List (String × Json)
  | [] => []
  | (name, v) :: fs =>
    if v.isNull then Value.fieldsToJson fs else (name, v.toJson) :: Value.fieldsToJson fs
termination_by structural fs => fs

end

namespace Json

/-! ## Reading scalars -/

/-- The text of a JSON scalar. -/
def scalarText (path : String) : Json → Except Error String
  | .string s => .ok s
  | .number n => .ok n.text
  | .bool b => .ok (if b then "true" else "false")
  | j => .error (.unsupported path (.memberNotScalar j.kind))

/-- Whether a value is null. -/
def isNull : Json → Bool
  | .null => true
  | _ => false

end Json

namespace Document

/-- The value of a scalar of the declared type; an empty text is no value. -/
def scalar (path : String) (type : ScalarType) (j : Json) : Except Error Value := do
  let text ← j.scalarText path
  match type.decode (Utf8.encode text) with
  | .ok v => pure (v.getD .null)
  | .error e => throw (.conversion path text e)

/-! ## Reading objects -/

/-- The name of the type of a document: the one it gives, which has to be usable where `declared`
is, or else the declared one. -/
def typeName (r : Registry) (path declared : String) (members : List (String × Json)) :
    Except Error String :=
  match members.lookup Path.hint with
  | none => .ok declared
  | some (.string type) =>
    if r.isAssignable type declared then .ok type
    else .error (.typeResolution type (Path.hintOf path))
  | some j => .error (.unsupported (Path.hintOf path) (.hintNotString j.kind))

/-- The entity that an id refers to. -/
def referent (r : Registry) (type id : String) : Except Error Object := do
  match (← r.get type).idProperty? with
  | some p => pure ⟨type, [(p.name, .text id)]⟩
  | none => throw (.missingId type)

/-- What a member holds, unless it is null. -/
def member? (members : List (String × Json)) (name : String) : Option Json :=
  (members.lookup name).filter (!·.isNull)

theorem sizeOf_lt_of_mem_lookup {members : List (String × Json)} {name : String} {j : Json}
    (h : members.lookup name = some j) : sizeOf j < sizeOf members := by
  induction members with
  | nil => simp at h
  | cons m ms ih =>
    obtain ⟨n, k⟩ := m
    rw [List.lookup_cons] at h
    split at h
    · cases h
      simp only [List.cons.sizeOf_spec, Prod.mk.sizeOf_spec]
      omega
    · have := ih h
      simp only [List.cons.sizeOf_spec]
      omega

theorem sizeOf_lt_of_member? {members : List (String × Json)} {name : String} {j : Json}
    (h : member? members name = some j) : sizeOf j < sizeOf members :=
  sizeOf_lt_of_mem_lookup (Option.filter_eq_some_iff.1 h).1

mutual

/-- The object of a declared type that a document stands for. -/
def objectAt (r : Registry) (path declared : String) : Json → Except Error Object
  | .object members => do
    let type ← typeName r path declared members
    let t ← r.get type
    let fields ← properties r path members t.properties
    pure (fields.foldl (fun o f => o.set f.1 f.2) ⟨type, []⟩)
  | j => .error (.unsupported path (.memberNotObject declared j.kind))
termination_by j => (sizeOf j, 0)

/-- The values of properties that members give, for the object at `base`. -/
def properties (r : Registry) (base : String) (members : List (String × Json)) :
    List Property → Except Error (List (String × Value))
  | [] => pure []
  | p :: ps => do
    let found ← (match _h : member? members p.name with
      | some j => do pure [(p.name, ← property r (Path.join base p.name) p j)]
      | none => pure [])
    pure (found ++ (← properties r base members ps))
termination_by ps => (sizeOf members, ps.length)
decreasing_by
  · exact .left _ _ (sizeOf_lt_of_member? _h)
  · exact .right _ (Nat.lt_succ_self _)

/-- The value of a property. -/
def property (r : Registry) (path : String) (p : Property) (j : Json) : Except Error Value :=
  match p.shape with
  | .single type => element r path type p.isReference j
  | .list type =>
    match j with
    | .array items => do pure (.list (← elements r path type p.isReference 0 items))
    | j => .error (.unsupported path (.memberNotArray j.kind))
  | .map key type =>
    match j with
    | .object members => do pure (.map (← entries r path key type p.isReference members))
    | j => .error (.unsupported path (.memberNotMap j.kind))
termination_by (sizeOf j, 2)

/-- A value of a declared type. -/
def element (r : Registry) (path : String) (type : TypeRef) (reference : Bool) (j : Json) :
    Except Error Value :=
  match type, j with
  | _, .null => pure .null
  | .scalar type, j => scalar path type j
  | .entity declared, j => do
    match reference, j with
    | true, .string id => pure (← referent r declared id).toValue
    | _, j => pure (← objectAt r path declared j).toValue
termination_by (sizeOf j, 1)

/-- The items of a list, the first of which has the given index. -/
def elements (r : Registry) (base : String) (type : TypeRef) (reference : Bool) (index : Nat) :
    List Json → Except Error (List Value)
  | [] => pure []
  | j :: js => do
    let v ← element r (Path.element base (.ofList (Number.natText index))) type reference j
    pure (v :: (← elements r base type reference (index + 1) js))
termination_by js => (sizeOf js, 0)

/-- The entries of a map, in the order of the members. -/
def entries (r : Registry) (base : String) (key : ScalarType) (type : TypeRef)
    (reference : Bool) : List (String × Json) → Except Error (List (Value × Value))
  | [] => pure []
  | (name, j) :: ms => do
    let path := Path.element base name
    let k ← scalar path key (.string name)
    let v ← element r path type reference j
    pure ((k, v) :: (← entries r base key type reference ms))
termination_by ms => (sizeOf ms, 0)

end

/-- The object that a document stands for, of a type or of one that can stand for it. -/
def object (r : Registry) (declared : String) (j : Json) : Except Error Object :=
  objectAt r "" declared j

/-- The name of the type that a document gives. -/
def givenType? : Json → Option String
  | .object members =>
    match members.lookup Path.hint with
    | some (.string type) => some type
    | _ => none
  | _ => none

end Document

/-! ## Reading records -/

/-- The record that a JSON object of scalars stands for. -/
def Record.ofJson : Json → Except Error Record
  | .object members => do
    let xs ← members.mapM fun m => do pure (m.1, ← m.2.scalarText m.1)
    pure (Record.ofTexts xs)
  | _ => .error (.unsupported "" .recordNotObject)

end FlatGraph
