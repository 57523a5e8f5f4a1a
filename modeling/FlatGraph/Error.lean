import FlatGraph.Index
import FlatGraph.Json.Value
import FlatGraph.Scalar.Error
import FlatGraph.Store.Error

/-!
# Errors

All that can go wrong between objects, records, schemas, documents and the store, and how it is
worded.
-/

namespace FlatGraph

open Text (quote)

/-- What a type, a value or a document does that is not supported. -/
inductive Violation where
  -- Registering types
  | unknownParent (parent : String)
  | badKeyspace (keyspace : String)
  | secondId
  | idNotScalar
  | constructorNotScalar
  | referenceToScalar
  | indexNotScalar
  | keyTypeNotScalar (type : String)
  -- Values that do not have the declared shape
  | unknownArgument
  | notScalar (found : Kind)
  | notList (found : Kind)
  | notMap (found : Kind)
  | notObject (declared : String) (found : Kind)
  | notAssignable (type declared : String)
  | criterionNotScalar (found : Kind)
  -- Documents that do not have the declared shape
  | memberNotScalar (found : Json.Kind)
  | memberNotArray (found : Json.Kind)
  | memberNotMap (found : Json.Kind)
  | memberNotObject (declared : String) (found : Json.Kind)
  | hintNotString (found : Json.Kind)
  | recordNotObject
deriving DecidableEq, Repr

/-- The wording of a violation. -/
def Violation.message : Violation → String
  | .unknownParent parent => s!"unknown parent type {parent}"
  | .badKeyspace keyspace =>
    s!"keyspace {quote keyspace} must be non-empty and free of '.' and ':'"
  | .secondId => "more than one id property"
  | .idNotScalar => "id property must be a single scalar"
  | .constructorNotScalar => "constructor-bound property must be a single scalar"
  | .referenceToScalar => "reference must point to an entity type"
  | .indexNotScalar => "only single scalars can be indexed"
  | .keyTypeNotScalar type => s!"map key type {type} is not a scalar"
  | .unknownArgument => "constructor argument names no property"
  | .notScalar found => s!"expected a scalar, found {found.name}"
  | .notList found => s!"expected a list, found {found.name}"
  | .notMap found => s!"expected a map, found {found.name}"
  | .notObject declared found => s!"expected an object of type {declared}, found {found.name}"
  | .notAssignable type declared => s!"type {type} is not assignable to {declared}"
  | .criterionNotScalar found => s!"query value must be a scalar, found {found.name}"
  | .memberNotScalar found => s!"expected a scalar, found {found.name}"
  | .memberNotArray found => s!"expected an array, found {found.name}"
  | .memberNotMap found => s!"expected an object, found {found.name}"
  | .memberNotObject declared found =>
    s!"expected an object for {declared}, found {found.name}"
  | .hintNotString found => s!"type hint must be a string, found {found.name}"
  | .recordNotObject => "flat record must be a JSON object"

/-- What is wrong with a configuration. -/
inductive ConfigFault where
  | incomplete (definition : IndexDefinition)
  | badKeyspace (keyspace : String)
deriving DecidableEq, Repr

/-- The wording of a fault. -/
def ConfigFault.message : ConfigFault → String
  | .incomplete d =>
    "index definition needs a keyspace and a path: IndexDefinition \x7b keyspace: " ++
      quote d.keyspace ++ ", path: " ++ quote d.property ++ ", index_type: Simple \x7d"
  | .badKeyspace keyspace => s!"keyspace {quote keyspace} must not contain '.' or ':'"

/-- Why a file cannot be read. -/
inductive FileFault where
  | missing
  | notText
deriving DecidableEq, Repr

/-- The wording of a fault. -/
def FileFault.message : FileFault → String
  | .missing => "No such file or directory (os error 2)"
  | .notText => "stream did not contain valid UTF-8"

/-- An error. -/
inductive Error where
  | store (e : StoreError)
  | scalar (e : ScalarError)
  | file (fault : FileFault)
  /-- A text that is no JSON, or not of the expected form. -/
  | json
  /-- A value that does not convert: where it is, and how it shows. -/
  | conversion (path raw : String) (source : ScalarError)
  /-- A type hint that names no usable type. -/
  | typeResolution (type path : String)
  | unsupported (path : String) (violation : Violation)
  | unknownType (type : String)
  /-- An entity that is referenced or stored and has no id. -/
  | missingId (type : String)
  | invalidReference (path pointer : String)
  | invalidConfig (fault : ConfigFault)
  /-- Objects that, as their types are declared, would hold one another without end. -/
  | endless (type path : String)
deriving DecidableEq, Repr

/-- The wording of an error. -/
def Error.message : Error → String
  | .store e => s!"storage error: {e.message}"
  | .scalar e => s!"codec error: {e.message}"
  | .file fault => s!"I/O error: {fault.message}"
  | .json => "JSON error"
  | .conversion path raw source =>
    s!"conversion failed at {quote path} for {quote raw}: {source.message}"
  | .typeResolution type path => s!"cannot resolve type {quote type} at {quote path}"
  | .unsupported path violation =>
    s!"unsupported descriptor at {quote path}: {violation.message}"
  | .unknownType type => s!"unknown type: {type}"
  | .missingId type => s!"referenced entity of type {type} has no id"
  | .invalidReference path pointer => s!"invalid reference {quote pointer} at {quote path}"
  | .invalidConfig fault => s!"invalid configuration: {fault.message}"
  | .endless type path => s!"type {type} at {quote path} holds itself without end"

end FlatGraph
