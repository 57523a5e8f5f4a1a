import FlatGraph.Calendar.Text
import FlatGraph.Number.Notation
import FlatGraph.Scalar.Type
import FlatGraph.Text.Quoted
import FlatGraph.Text.Utf8
import FlatGraph.Value

/-!
# Errors of the scalar codec

What goes wrong between a scalar and its bytes, and how it is worded.
-/

namespace FlatGraph

/-- Why a value or stored bytes do not fit a scalar type. -/
inductive Misfit where
  | notText (fault : Utf8.Fault)
  | notInteger (fault : Number.IntegerFault)
  | notFloating (fault : Number.FloatingFault)
  | notDate (fault : Calendar.DateFault)
  /-- Stored text that names no variant. -/
  | unknownVariant
  /-- A value that names no variant of an enumeration. -/
  | notVariant (variant enumeration : String)
  | wrongKind (kind : Kind) (type : String)
  | outOfRange
  /-- A key of a record that is no text. -/
  | keyNotText
deriving DecidableEq, Repr

/-- The wording of a misfit. -/
def Misfit.message : Misfit → String
  | .notText fault => fault.message
  | .notInteger fault => fault.message
  | .notFloating fault => fault.message
  | .notDate fault => fault.message
  | .unknownVariant => "no variant with that name"
  | .notVariant variant enumeration => s!"{variant} is not a variant of {enumeration}"
  | .wrongKind kind type => s!"a {kind.name} value does not fit {type}"
  | .outOfRange => "out of range"
  | .keyNotText => "key is not valid UTF-8"

/-- An error of the scalar codec. -/
inductive ScalarError where
  /-- `raw`, shown as text, is no representation of the type named `target`. -/
  | conversion (target raw : String) (misfit : Misfit)
  /-- A list, a map or an object where a scalar is needed. -/
  | notScalar (kind : Kind)
deriving DecidableEq, Repr

/-- The wording of an error. -/
def ScalarError.message : ScalarError → String
  | .conversion target raw misfit =>
    s!"cannot convert {Text.quote raw} to {target}: {misfit.message}"
  | .notScalar kind => s!"value of kind {kind.name} is not a scalar"

end FlatGraph
