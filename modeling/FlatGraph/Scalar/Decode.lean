import FlatGraph.Scalar.Error
import FlatGraph.Text.Blank

/-!
# Reading scalars

Stored bytes are read as the type that is declared for them. No bytes at all are no value, for
every type. White space around numbers, variants and dates does not count.
-/

namespace FlatGraph

open Number (Floating binary32 binary64)

/-- A single-precision number in double precision: the value nearest to its shortest text, so that
`0.1` stays `0.1`. -/
def widen (x : Floating binary32) : Floating binary64 :=
  match Floating.read binary64 x.text with
  | .ok y => y
  | .error _ => x.convert

/-- Whether a text stands for true. -/
def isTrueText (s : String) : Bool :=
  s == "1" || s.toList.map Char.toLower == ['t', 'r', 'u', 'e']

namespace ScalarType

/-- The value of the type that a text stands for. -/
def decodeText (type : ScalarType) (s : String) : Except Misfit Value :=
  let trimmed := Text.trim s
  match type with
  | .text => .ok (.text s)
  | .int width =>
    match Number.readInt width.least width.greatest trimmed.toList with
    | .ok n => .ok (.integer (Int64.ofInt n))
    | .error fault => .error (.notInteger fault)
  | .float32 =>
    match Floating.read binary32 trimmed.toList with
    | .ok x => .ok (.float (widen x))
    | .error fault => .error (.notFloating fault)
  | .float64 =>
    match Floating.read binary64 trimmed.toList with
    | .ok x => .ok (.float x)
    | .error fault => .error (.notFloating fault)
  | .bool => .ok (.bool (isTrueText s))
  | .enum e => if e.declares trimmed then .ok (.enum trimmed) else .error .unknownVariant
  | .date =>
    match Calendar.readDate trimmed with
    | .ok t => .ok (.date t)
    | .error fault => .error (.notDate fault)
  | .bytes => .ok (.bytes (Utf8.encode s))

/-- The value of the type that stored bytes stand for. -/
def decode (type : ScalarType) (bs : Bytes) : Except ScalarError (Option Value) :=
  let refuse (misfit : Misfit) := ScalarError.conversion type.name (Utf8.lossy bs) misfit
  match type, bs with
  | _, [] => .ok none
  | .bytes, bs => .ok (some (.bytes bs))
  | type, bs =>
    match Utf8.decode bs with
    | .error fault => .error (refuse (.notText fault))
    | .ok s => (some <$> type.decodeText s).mapError refuse

end ScalarType

end FlatGraph
