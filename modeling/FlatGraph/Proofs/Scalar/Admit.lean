import FlatGraph.Proofs.Scalar.Recode

/-!
# The values of scalar types

What bytes of a declared type are read as is a value of the type (`admits_of_decode`), and what
values are written as can be read again.

* `Admits.encode_iff`: each value of a type can be written as the type, except for the greatest
  numbers in single precision, which double precision puts beyond their range.
* `exists_decode_of_encode`: what was written as a type is no error to a reader, except for an
  instant at the very end of the calendar.
-/

namespace FlatGraph

open Number (Floating binary32 binary64)

/-- The declared variants have no white space around them. -/
def EnumType.Trimmed (e : EnumType) : Prop := ∀ variant ∈ e.variants, Text.trim variant = variant

/-- The start of the millisecond of the instant is an instant, too. A leap second after the last
second of all has milliseconds beyond the range. -/
def Calendar.Instant.InRange (t : Instant) : Prop := ∃ u, ofMillis? t.millis = some u

namespace ScalarType

variable {type : ScalarType} {bs : Bytes} {v : Value} {s : String}

/-- A value of a type. Texts and bytes are not empty, as nothing is stored for them. -/
inductive Admits : ScalarType → Value → Prop
  | text {s : String} (h : s ≠ "") : Admits .text (.text s)
  | int {w : Width} {n : Int64} (h : w.holds n.toInt = true) : Admits (.int w) (.integer n)
  | float32 (x : Floating binary32) : Admits .float32 (.float (widen x))
  | float64 (x : Floating binary64) : Admits .float64 (.float x)
  | bool (b : Bool) : Admits .bool (.bool b)
  | date (t : Calendar.Instant) : Admits .date (.date t)
  | bytes {bs : Bytes} (h : bs ≠ []) : Admits .bytes (.bytes bs)
  | enum {e : EnumType} {variant : String} (h : e.declares variant = true) :
      Admits (.enum e) (.enum variant)

/-! ## Reading -/

/-- A width has no integers that a machine word cannot hold. -/
theorem toInt_ofInt_of_mem {w : Width} {n : Int} (h : w.least ≤ n ∧ n ≤ w.greatest) :
    (Int64.ofInt n).toInt = n := by
  have hword : Number.leastSigned ≤ w.least ∧ w.greatest ≤ Number.greatestSigned := by
    cases w <;> decide
  have hsigned : -2 ^ 63 ≤ n ∧ n < 2 ^ 63 := by
    have : Number.leastSigned ≤ n ∧ n ≤ Number.greatestSigned :=
      ⟨hword.1.trans h.1, h.2.trans hword.2⟩
    norm_num at this ⊢
    omega
  exact Int64.toInt_ofInt_of_le hsigned.1 hsigned.2

theorem admits_of_decodeText (hs : s ≠ "") (h : type.decodeText s = .ok v) : type.Admits v := by
  cases type with
  | text =>
    cases h
    exact .text hs
  | int w =>
    rw [decodeText] at h
    split at h
    · next n hn =>
      cases h
      have hmem := Number.mem_of_readInt (zero_mem w) hn
      refine .int ?_
      rw [toInt_ofInt_of_mem hmem]
      exact holds_iff.2 hmem
    · cases h
  | float32 =>
    rw [decodeText] at h
    split at h
    · cases h
      exact .float32 _
    · cases h
  | float64 =>
    rw [decodeText] at h
    split at h
    · cases h
      exact .float64 _
    · cases h
  | bool =>
    cases h
    exact .bool _
  | date =>
    rw [decodeText] at h
    split at h
    · cases h
      exact .date _
    · cases h
  | bytes =>
    cases h
    exact .bytes (mt Utf8.encode_eq_nil_iff.1 hs)
  | enum e =>
    rw [decodeText] at h
    split at h
    · next hd =>
      cases h
      exact .enum hd
    · cases h

/-- **What bytes are read as is a value of the type.** -/
theorem admits_of_decode (h : type.decode bs = .ok (some v)) : type.Admits v := by
  by_cases hb : type = .bytes
  · subst hb
    have hne := ne_nil_of_decode h
    rw [decode_bytes hne] at h
    cases h
    exact .bytes hne
  · obtain ⟨hne, s, hs, hv⟩ := (decode_eq_some_iff hb).1 h
    refine admits_of_decodeText ?_ hv
    rintro rfl
    exact hne (Utf8.decode_eq_ok_iff.1 hs).symm

theorem Admits.isScalar (h : type.Admits v) : v.isScalar = true := by cases h <;> rfl

theorem Admits.isNull (h : type.Admits v) : v.isNull = false := by cases h <;> rfl

/-! ## Writing what was read -/

/-- The greatest number in single precision, with a sign, as it is read. -/
def greatestSingle (negative : Bool) : Value := .float (widen (.greatest binary32 negative))

theorem narrow?_widen_eq_none_iff {x : Floating binary32} :
    narrow? (widen x) = none ↔ ∃ negative, x = .greatest binary32 negative := by
  rw [narrow?, widen_eq, ← Floating.exceeds_reread_iff]
  split <;> simp_all

theorem encode_eq_ok_iff_of_isScalar (h : v.isScalar = true) :
    type.encode v = .ok bs ↔ type.encodeScalar v = .ok bs := by
  cases v <;> first | exact Outcome.mapError_eq_ok_iff | cases h

/-- **A value of a type can be written as the type, unless it is one of the greatest numbers in
single precision.** -/
theorem Admits.encode_iff (h : type.Admits v) :
    (∃ bs, type.encode v = .ok bs) ↔
      ¬ (type = .float32 ∧ ∃ negative, v = greatestSingle negative) := by
  simp only [encode_eq_ok_iff_of_isScalar h.isScalar]
  cases h with
  | float32 x =>
    have hencode : (∃ bs, ScalarType.float32.encodeScalar (.float (widen x)) = .ok bs) ↔
        narrow? (widen x) ≠ none := by
      rw [encodeScalar]
      cases narrow? (widen x) <;> simp
    rw [hencode, and_iff_right rfl, not_iff_not]
    constructor
    · intro h
      obtain ⟨negative, rfl⟩ := narrow?_widen_eq_none_iff.1 h
      exact ⟨negative, rfl⟩
    · rintro ⟨negative, h⟩
      rw [Value.float.inj h]
      exact narrow?_widen_eq_none_iff.2 ⟨negative, rfl⟩
  | int h => exact iff_of_true ⟨_, by rw [encodeScalar, if_pos h]⟩ (by simp)
  | enum h => exact iff_of_true ⟨_, by rw [encodeScalar, if_pos h]⟩ (by simp)
  | text | float64 | bool | date | bytes => exact iff_of_true ⟨_, rfl⟩ (by simp)

/-! ## Reading what was written -/

theorem encodeScalar_of_encode (hne : bs ≠ []) (h : type.encode v = .ok bs) :
    type.encodeScalar v = .ok bs := by
  cases v with
  | null =>
    cases h
    exact absurd rfl hne
  | list | map | object => cases h
  | _ => exact Outcome.mapError_eq_ok_iff.1 h

theorem exists_decodeText_float32 (x : Floating binary32) :
    ∃ w, ScalarType.float32.decodeText (.ofList x.text) = .ok w := by
  rw [decodeText, toList_trim_of_isNumeral fun _ => Floating.mem_text,
    Floating.read_text_self Number.wide_binary32]
  exact ⟨_, rfl⟩

/-- Each type but that of bytes writes a text that it reads. -/
theorem exists_decodeText_of_encodeScalar (hb : type ≠ .bytes)
    (he : ∀ e, type = .enum e → e.Trimmed) (hd : ∀ t, type = .date → v = .date t → t.InRange)
    (h : type.encodeScalar v = .ok bs) :
    ∃ s w, Utf8.encode s = bs ∧ type.decodeText s = .ok w := by
  have hvariant : ∀ e variant, type = .enum e → e.declares variant = true →
      ∃ w, type.decodeText variant = .ok w := by
    rintro e variant rfl hv
    have htrim := he e rfl variant (by simpa [EnumType.declares] using hv)
    rw [decodeText, htrim, if_pos hv]
    exact ⟨_, rfl⟩
  unfold encodeScalar at h
  dsimp only at h
  split at h
  case h_1 s => exact ⟨s, _, Except.ok.inj h, rfl⟩
  case h_2 b => exact ⟨_, _, Except.ok.inj h, rfl⟩
  case h_3 t =>
    obtain ⟨u, hu⟩ := hd t rfl rfl
    refine ⟨_, .date u, Except.ok.inj h, ?_⟩
    rw [decodeText_dateText, hu]
    rfl
  case h_4 x =>
    refine ⟨_, .float x, Except.ok.inj h, ?_⟩
    rw [decodeText, toList_trim_of_isNumeral fun _ => Floating.mem_text,
      Floating.read_text_self Number.wide_binary64]
  case h_5 n =>
    obtain ⟨x, hx⟩ := Floating.exists_read_intText binary64 n.toInt
    refine ⟨_, .float x, Except.ok.inj h, ?_⟩
    rw [decodeText, toList_trim_of_isNumeral fun _ => isNumeral_of_mem_intText, hx]
  case h_6 => exact absurd rfl hb
  case h_7 => exact absurd rfl hb
  case h_8 w n =>
    split_ifs at h with hw
    exact ⟨_, .integer n, Except.ok.inj h, decodeText_intText hw⟩
  case h_9 x =>
    split at h
    · obtain ⟨w, hw⟩ := exists_decodeText_float32 _
      exact ⟨_, w, Except.ok.inj h, hw⟩
    · cases h
  case h_10 n =>
    split at h
    · obtain ⟨w, hw⟩ := exists_decodeText_float32 _
      exact ⟨_, w, Except.ok.inj h, hw⟩
    · cases h
  case h_11 e variant =>
    split_ifs at h with hv
    obtain ⟨w, hw⟩ := hvariant e variant rfl hv
    exact ⟨_, w, Except.ok.inj h, hw⟩
  case h_12 e variant =>
    split_ifs at h with hv
    obtain ⟨w, hw⟩ := hvariant e variant rfl hv
    exact ⟨_, w, Except.ok.inj h, hw⟩
  case h_13 => cases h

/-- **What was written as a type can be read as the type**, or is nothing. -/
theorem exists_decode_of_encode (he : ∀ e, type = .enum e → e.Trimmed)
    (hd : ∀ t, type = .date → v = .date t → t.InRange) (h : type.encode v = .ok bs) :
    ∃ w?, type.decode bs = .ok w? := by
  by_cases hnil : bs = []
  · exact ⟨none, hnil ▸ decode_nil type⟩
  by_cases hb : type = .bytes
  · exact ⟨_, hb ▸ decode_bytes hnil⟩
  obtain ⟨s, w, rfl, hw⟩ := exists_decodeText_of_encodeScalar hb he hd
    (encodeScalar_of_encode hnil h)
  exact ⟨some w, decode_encode_eq_some_iff.2 ⟨mt Utf8.encode_eq_nil_iff.2 hnil, hw⟩⟩

/-- So can the text of a key, even if it only stands for bytes that are no text. -/
theorem exists_decode_of_keyText (he : ∀ e, type = .enum e → e.Trimmed)
    (hd : ∀ t, type = .date → v = .date t → t.InRange) {text : String}
    (h : type.keyText v = .ok text) : ∃ w?, type.decode (Utf8.encode text) = .ok w? := by
  obtain ⟨bs, hbs, rfl⟩ := Outcome.map_eq_ok_iff.1 h
  by_cases hb : type = .bytes
  · by_cases hnil : Utf8.encode (Utf8.lossy bs) = []
    · exact ⟨none, hnil ▸ decode_nil type⟩
    · exact ⟨_, hb ▸ decode_bytes hnil⟩
  · have htext : Utf8.encode (Utf8.lossy bs) = bs := by
      by_cases hnil : bs = []
      · rw [hnil, ← Utf8.encode_empty, Utf8.lossy_encode]
      · obtain ⟨s, w, rfl, -⟩ := exists_decodeText_of_encodeScalar hb he hd
          (encodeScalar_of_encode hnil hbs)
        rw [Utf8.lossy_encode]
    rw [htext]
    exact exists_decode_of_encode he hd hbs

end ScalarType

end FlatGraph
