import FlatGraph.Scalar.Error

/-!
# Writing scalars

Every scalar has one text: text is itself, numbers are decimal, `1` and `0` stand for the truth
values, a variant is its name, and a date is its milliseconds since 1970. The bytes that are
stored are those of the text, except that bytes are stored as they are.

* `Value.toText` and `Value.toBytes` write a scalar for what it is.
* `ScalarType.encode` writes it as a declared type, which it has to fit: what is written this way
  can be read back as that type.

The absence of a value is written as nothing.
-/

namespace FlatGraph

open Number (Floating binary32)

namespace Value

/-- The text of a scalar. Bytes show as the text they most likely are. -/
def toText : Value → Except ScalarError String
  | .null => .ok ""
  | .bool b => .ok (if b then "1" else "0")
  | .integer n => .ok (.ofList (Number.intText n.toInt))
  | .float x => .ok (.ofList x.text)
  | .text s => .ok s
  | .bytes bs => .ok (Utf8.lossy bs)
  | .enum variant => .ok variant
  | .date t => .ok (.ofList (Calendar.dateText t))
  | .list _ => .error (.notScalar .list)
  | .map _ => .error (.notScalar .map)
  | .object .. => .error (.notScalar .object)

/-- The bytes of a scalar. -/
def toBytes : Value → Except ScalarError Bytes
  | .bytes bs => .ok bs
  | v => Utf8.encode <$> v.toText

/-- The bytes of a value as they show in messages; empty if the value is no scalar. -/
def shown (v : Value) : String :=
  match v.toBytes with
  | .ok bs => Utf8.lossy bs
  | .error _ => ""

end Value

namespace ScalarType

/-- A floating-point number in single precision, if it is not beyond its range. -/
def narrow? (x : Floating Number.binary64) : Option (Floating binary32) :=
  if x.exceeds binary32 then none else some x.convert

/-- The bytes of a scalar of the declared type. -/
def encodeScalar (type : ScalarType) (v : Value) : Except Misfit Bytes :=
  let text (cs : List Char) : Except Misfit Bytes := .ok (Utf8.encode (.ofList cs))
  match type, v with
  | .text, .text s => .ok (Utf8.encode s)
  | .bool, .bool b => .ok (Utf8.encode (if b then "1" else "0"))
  | .date, .date t => text (Calendar.dateText t)
  | .float64, .float x => text x.text
  | .float64, .integer n => text (Number.intText n.toInt)
  | .bytes, .bytes bs => .ok bs
  | .bytes, .text s => .ok (Utf8.encode s)
  | .int width, .integer n =>
    if width.holds n.toInt then text (Number.intText n.toInt) else .error .outOfRange
  | .float32, .float x =>
    match narrow? x with
    | some y => text y.text
    | none => .error .outOfRange
  | .float32, .integer n =>
    match narrow? (Floating.ofInt n.toInt) with
    | some y => text y.text
    | none => .error .outOfRange
  | .enum e, .enum variant | .enum e, .text variant =>
    if e.declares variant then .ok (Utf8.encode variant) else .error (.notVariant variant e.name)
  | type, v => .error (.wrongKind v.kind type.name)

/-- The bytes of a value of the declared type. -/
def encode (type : ScalarType) (v : Value) : Except ScalarError Bytes :=
  match v with
  | .null => .ok []
  | .list _ => .error (.notScalar .list)
  | .map _ => .error (.notScalar .map)
  | .object .. => .error (.notScalar .object)
  | v => (type.encodeScalar v).mapError (.conversion type.name v.shown)

end ScalarType

end FlatGraph
