import FlatGraph.Bytes

/-!
# UTF-8

Text is stored as its UTF-8 bytes. Reading stored bytes back either gives the text (`decode`) or
says where the bytes stop being text (`Fault`). For messages there is a reading that never fails
(`lossy`): each byte sequence that cannot be continued to a character becomes one U+FFFD.
-/

namespace FlatGraph.Utf8

/-! ## Writing -/

/-- The one to four bytes of a character. -/
def encodeChar (c : Char) : Bytes :=
  let n := c.toNat
  if n < 0x80 then
    [.ofNat n]
  else if n < 0x800 then
    [.ofNat (0xC0 + n / 0x40), .ofNat (0x80 + n % 0x40)]
  else if n < 0x10000 then
    [.ofNat (0xE0 + n / 0x1000), .ofNat (0x80 + n / 0x40 % 0x40), .ofNat (0x80 + n % 0x40)]
  else
    [.ofNat (0xF0 + n / 0x40000), .ofNat (0x80 + n / 0x1000 % 0x40),
      .ofNat (0x80 + n / 0x40 % 0x40), .ofNat (0x80 + n % 0x40)]

/-- The bytes of a text. -/
def encode (s : String) : Bytes := s.toList.flatMap encodeChar

@[simp] theorem encode_empty : encode "" = [] := rfl

/-! ## Reading -/

/-- A byte that opens a character of several bytes: its share of the character's number, how many
bytes follow, and the least and greatest byte that may come second. -/
structure Opening where
  share : Nat
  more : Nat
  least : Nat
  greatest : Nat

/-- The openings. The narrow ranges of second bytes keep out overlong forms, the surrogates, and
numbers above U+10FFFF. -/
def opening? (b : Nat) : Option Opening :=
  if 0xC2 ≤ b ∧ b ≤ 0xDF then some ⟨b - 0xC0, 1, 0x80, 0xBF⟩
  else if b = 0xE0 then some ⟨0, 2, 0xA0, 0xBF⟩
  else if b = 0xED then some ⟨0xD, 2, 0x80, 0x9F⟩
  else if 0xE1 ≤ b ∧ b ≤ 0xEF then some ⟨b - 0xE0, 2, 0x80, 0xBF⟩
  else if b = 0xF0 then some ⟨0, 3, 0x90, 0xBF⟩
  else if 0xF1 ≤ b ∧ b ≤ 0xF3 then some ⟨b - 0xF0, 3, 0x80, 0xBF⟩
  else if b = 0xF4 then some ⟨4, 3, 0x80, 0x8F⟩
  else none

/-- How the front of a byte string reads. -/
inductive Front where
  /-- A character, and what follows it. -/
  | char (c : Char) (rest : Bytes)
  /-- The first `width` bytes open a character that the byte after them does not continue. -/
  | invalid (width : Nat)
  /-- The bytes end inside a character. -/
  | incomplete

/-- Reads the bytes owed to a character of which `taken` bytes, worth `value`, are read. -/
def finish (value taken : Nat) : Nat → Nat → Nat → Bytes → Front
  | 0, _, _, rest => .char (Char.ofNat value) rest
  | _ + 1, _, _, [] => .incomplete
  | more + 1, least, greatest, b :: rest =>
    if least ≤ b.toNat ∧ b.toNat ≤ greatest then
      finish (value * 0x40 + b.toNat % 0x40) (taken + 1) more 0x80 0xBF rest
    else
      .invalid taken

/-- Reads the character that starts with `b`. -/
def front (b : UInt8) (rest : Bytes) : Front :=
  if b.toNat < 0x80 then .char (Char.ofNat b.toNat) rest
  else match opening? b.toNat with
    | some o => finish o.share 1 o.more o.least o.greatest rest
    | none => .invalid 1

theorem finish_length_le {value taken more least greatest : Nat} {bs rest : Bytes} {c : Char}
    (h : finish value taken more least greatest bs = .char c rest) :
    rest.length ≤ bs.length := by
  induction more generalizing value taken least greatest bs with
  | zero => cases h; exact Nat.le_refl _
  | succ more ih =>
    cases bs with
    | nil => cases h
    | cons b bs =>
      unfold finish at h
      split at h
      · exact Nat.le_succ_of_le (ih h)
      · cases h

theorem front_length_le {b : UInt8} {bs rest : Bytes} {c : Char} (h : front b bs = .char c rest) :
    rest.length ≤ bs.length := by
  unfold front at h
  split at h
  · cases h; exact Nat.le_refl _
  · split at h
    · exact finish_length_le h
    · cases h

/-- Where and how bytes stop being text. -/
structure Fault where
  /-- The number of bytes before the fault. -/
  index : Nat
  /-- The width of the sequence at fault; none if the bytes end inside a character. -/
  width : Option Nat
deriving DecidableEq, Repr

/-- The wording of a fault. -/
def Fault.message (f : Fault) : String :=
  match f.width with
  | some width => s!"invalid utf-8 sequence of {width} bytes from index {f.index}"
  | none => s!"incomplete utf-8 byte sequence from index {f.index}"

/-- The characters of `bs`, whose first byte stands at `index`. -/
def decodeFrom (index : Nat) : Bytes → Except Fault (List Char)
  | [] => .ok []
  | b :: bs =>
    match _h : front b bs with
    | .char c rest => (c :: ·) <$> decodeFrom (index + (bs.length + 1 - rest.length)) rest
    | .invalid width => .error ⟨index, some width⟩
    | .incomplete => .error ⟨index, none⟩
termination_by bs => bs.length
decreasing_by exact Nat.lt_succ_of_le (front_length_le _h)

/-- The text that the bytes are, or the first fault in them. -/
def decode (bs : Bytes) : Except Fault String := String.ofList <$> decodeFrom 0 bs

/-- The characters of `bs`, with U+FFFD for each sequence that is none. -/
def lossyChars : Bytes → List Char
  | [] => []
  | b :: bs =>
    match _h : front b bs with
    | .char c rest => c :: lossyChars rest
    | .invalid width => '\uFFFD' :: lossyChars (bs.drop (width - 1))
    | .incomplete => ['\uFFFD']
termination_by bs => bs.length
decreasing_by
  · exact Nat.lt_succ_of_le (front_length_le _h)
  · simp only [List.length_drop, List.length_cons]; omega

/-- The text of the bytes, for people: what is no text shows as U+FFFD. -/
def lossy (bs : Bytes) : String := String.ofList (lossyChars bs)

end FlatGraph.Utf8
