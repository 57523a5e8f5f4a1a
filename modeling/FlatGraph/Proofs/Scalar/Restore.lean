import FlatGraph.Proofs.Scalar.Admit

/-!
# Scalars read back

**Theorem (`restores_iff`).** Of each type but those of floating-point numbers, what a value is
written as reads without an error, as no value exactly if nothing was written, and else as a value
that is written as the same bytes; which is the value itself, up to a part of a millisecond, if
the value is of the kind of the type. Two kinds of values are exceptions (`Misread`):

* variants with white space around them, which a reader takes off, and
* the leap second after the last second of all, whose milliseconds no other instant has.

Of each type, a value that is written is given together with its bytes and with the value that
these are read as (`ReadAs`). All parts of the theorem are then told by cases.
-/

namespace FlatGraph

/-! ## Milliseconds -/

namespace Calendar.Instant

/-- The start of the millisecond in which an instant lies. -/
def startOfMilli (t : Instant) : Instant where
  seconds := t.seconds
  nanos := t.nanos / 1000000 * 1000000
  least_le := t.least_le
  le_greatest := t.le_greatest
  nanos_lt := (Nat.div_mul_le_self _ _).trans_lt t.nanos_lt
  leap_at_minute h := t.leap_at_minute (h.trans (Nat.div_mul_le_self _ _))

theorem ofMillis?_millis {t : Instant} (h : t.isLeap = false) :
    ofMillis? t.millis = some t.startOfMilli := by
  have hnanos : t.nanos < 1000000000 := by simpa [isLeap] using h
  have hseconds : t.millis / 1000 = t.seconds := by
    unfold millis
    omega
  have hrest : (t.millis % 1000).toNat = t.nanos / 1000000 := by
    unfold millis
    omega
  rw [ofMillis?, hseconds, hrest]
  exact dif_pos ⟨t.least_le, t.le_greatest, t.startOfMilli.nanos_lt, t.startOfMilli.leap_at_minute⟩

/-- Only the milliseconds of a leap second after the last second of all are out of range. -/
theorem not_inRange_iff {t : Instant} :
    ¬ t.InRange ↔ t.isLeap = true ∧ t.seconds = greatestSecond := by
  by_cases hleap : t.isLeap = true
  swap
  · have hrange : t.InRange := ⟨_, ofMillis?_millis (by simpa using hleap)⟩
    simp [hleap, hrange]
  have hnanos : 1000000000 ≤ t.nanos := by simpa [isLeap] using hleap
  have hlt := t.nanos_lt
  have hleast : -8334601228800 ≤ t.seconds := t.least_le
  have hgreatest : t.seconds ≤ 8210266876799 := t.le_greatest
  have hseconds : t.millis / 1000 = t.seconds + 1 := by
    unfold millis
    omega
  have hrest : (t.millis % 1000).toNat < 1000 := by omega
  have hiff : t.InRange ↔ t.seconds + 1 ≤ greatestSecond := by
    unfold InRange ofMillis? of?
    rw [hseconds]
    split
    · next h => exact iff_of_true ⟨_, rfl⟩ h.2.1
    · next h =>
      refine iff_of_false ?_ fun hle => h ⟨?_, hle, ?_, ?_⟩
      · rintro ⟨_, hu⟩
        cases hu
      · show -8334601228800 ≤ t.seconds + 1
        omega
      · omega
      · intro
        omega
  rw [hiff, and_iff_right hleap]
  show ¬ t.seconds + 1 ≤ 8210266876799 ↔ t.seconds = 8210266876799
  omega

end Calendar.Instant

/-- A value without the part of a millisecond that a date may have. -/
def Value.toMilli : Value → Value
  | .date t => .date t.startOfMilli
  | v => v

namespace ScalarType

/-- The kind of the values of a type. -/
def kind : ScalarType → Kind
  | .text => .text
  | .int _ => .integer
  | .float32 | .float64 => .float
  | .bool => .bool
  | .date => .date
  | .bytes => .bytes
  | .enum _ => .enum

/-- The bytes that the value was written as are read as the type, and written again: they are no
value only if there are none, and what else they stand for has these bytes, too. -/
structure Restores (type : ScalarType) (v : Value) (bs : Bytes) : Prop where
  reads : ∃ w?, type.decode bs = .ok w?
  absent : type.decode bs = .ok none ↔ bs = []
  again : ∀ w, type.decode bs = .ok (some w) → type.encode w = .ok bs
  own : ∀ w, type.decode bs = .ok (some w) → v.kind = type.kind →
    (∀ t, v = .date t → t.isLeap = false) → w = v.toMilli

/-- The values that are written as what is read as something else, or not at all. -/
inductive Misread : ScalarType → Value → Prop
  | variant {e : EnumType} {variant : String} (h : Text.trim variant ≠ variant) :
      Misread (.enum e) (.enum variant)
  | text {e : EnumType} {variant : String} (h : Text.trim variant ≠ variant) :
      Misread (.enum e) (.text variant)
  | leap {t : Calendar.Instant} (h : t.isLeap = true) (hs : t.seconds = Calendar.greatestSecond) :
      Misread .date (.date t)

variable {type : ScalarType} {v w : Value} {bs : Bytes}

/-! ## What is read -/

/-- The value is written as the bytes, and these are read as the other value. -/
inductive ReadAs : ScalarType → Value → Bytes → Value → Prop
  | text (s : String) : ReadAs .text (.text s) (Utf8.encode s) (.text s)
  | int {w : Width} {n : Int64} (h : w.holds n.toInt = true) :
      ReadAs (.int w) (.integer n) (Utf8.encode (.ofList (Number.intText n.toInt))) (.integer n)
  | bool (b : Bool) : ReadAs .bool (.bool b) (Utf8.encode (if b then "1" else "0")) (.bool b)
  | date {t u : Calendar.Instant} (h : Calendar.Instant.ofMillis? t.millis = some u) :
      ReadAs .date (.date t) (Utf8.encode (.ofList (Calendar.dateText t))) (.date u)
  | bytes (bs : Bytes) : ReadAs .bytes (.bytes bs) bs (.bytes bs)
  | bytesOfText (s : String) :
      ReadAs .bytes (.text s) (Utf8.encode s) (.bytes (Utf8.encode s))
  | enum {e : EnumType} {s : String} (h : e.declares s = true) (ht : Text.trim s = s) :
      ReadAs (.enum e) (.enum s) (Utf8.encode s) (.enum s)
  | enumOfText {e : EnumType} {s : String} (h : e.declares s = true) (ht : Text.trim s = s) :
      ReadAs (.enum e) (.text s) (Utf8.encode s) (.enum s)

theorem exists_readAs (hf : type.kind ≠ .float) (hm : ¬ Misread type v)
    (h : type.encodeScalar v = .ok bs) : ∃ w, ReadAs type v bs w := by
  unfold encodeScalar at h
  dsimp only at h
  split at h
  case h_1 s => exact Except.ok.inj h ▸ ⟨_, .text s⟩
  case h_2 b => exact Except.ok.inj h ▸ ⟨_, .bool b⟩
  case h_3 t =>
    have hrange : t.InRange := by
      by_contra hno
      obtain ⟨hleap, hs⟩ := Calendar.Instant.not_inRange_iff.1 hno
      exact hm (.leap hleap hs)
    obtain ⟨u, hu⟩ := hrange
    exact Except.ok.inj h ▸ ⟨_, .date hu⟩
  case h_4 | h_5 | h_9 | h_10 => exact absurd rfl hf
  case h_6 bs => exact Except.ok.inj h ▸ ⟨_, .bytes bs⟩
  case h_7 s => exact Except.ok.inj h ▸ ⟨_, .bytesOfText s⟩
  case h_8 w n =>
    split_ifs at h with hw
    exact Except.ok.inj h ▸ ⟨_, .int hw⟩
  case h_11 e variant =>
    split_ifs at h with hv
    exact Except.ok.inj h ▸ ⟨_, .enum hv (not_not.1 fun ht => hm (.variant ht))⟩
  case h_12 e variant =>
    split_ifs at h with hv
    exact Except.ok.inj h ▸ ⟨_, .enumOfText hv (not_not.1 fun ht => hm (.text ht))⟩
  case h_13 => cases h

namespace ReadAs

theorem decode (h : ReadAs type v bs w) (hne : bs ≠ []) : type.decode bs = .ok (some w) := by
  have htext : ∀ {s : String}, Utf8.encode s ≠ [] → type.decodeText s = .ok w →
      type.decode (Utf8.encode s) = .ok (some w) := fun hs hw =>
    decode_encode_eq_some_iff.2 ⟨mt Utf8.encode_eq_nil_iff.2 hs, hw⟩
  cases h with
  | text s => exact htext hne rfl
  | int h => exact htext hne (decodeText_intText h)
  | bool b => exact htext hne (by cases b <;> rfl)
  | date h =>
    refine htext hne ?_
    rw [decodeText_dateText, h]
    rfl
  | bytes bs => exact decode_bytes hne
  | bytesOfText s => exact decode_bytes hne
  | enum h ht => exact htext hne (by rw [decodeText, ht, if_pos h])
  | enumOfText h ht => exact htext hne (by rw [decodeText, ht, if_pos h])

/-- What is read is written as the same bytes. -/
theorem encode (h : ReadAs type v bs w) : type.encode w = .ok bs := by
  have hscalar : w.isScalar = true := by cases h <;> rfl
  rw [encode_eq_ok_iff_of_isScalar hscalar]
  cases h with
  | text | bool | bytes | bytesOfText => rfl
  | int h => rw [encodeScalar, if_pos h]
  | date h =>
    show Except.ok (Utf8.encode (.ofList (Number.intText _))) = _
    rw [Calendar.millis_of_ofMillis? h]
    rfl
  | enum h => rw [encodeScalar, if_pos h]
  | enumOfText h => rw [encodeScalar, if_pos h]

theorem eq_toMilli (h : ReadAs type v bs w) (hk : v.kind = type.kind)
    (hd : ∀ t, v = .date t → t.isLeap = false) : w = v.toMilli := by
  cases h with
  | text | int | bool | bytes | enum => rfl
  | date h =>
    rw [Calendar.Instant.ofMillis?_millis (hd _ rfl)] at h
    cases h
    rfl
  | bytesOfText | enumOfText => cases hk

theorem restores (h : ReadAs type v bs w) : type.Restores v bs where
  reads := by
    by_cases hne : bs = []
    · exact ⟨none, hne ▸ decode_nil type⟩
    · exact ⟨some w, h.decode hne⟩
  absent := decode_eq_none_iff
  again u hu := by
    cases (h.decode (ne_nil_of_decode hu)).symm.trans hu
    exact h.encode
  own u hu hk hd := by
    cases (h.decode (ne_nil_of_decode hu)).symm.trans hu
    exact h.eq_toMilli hk hd

end ReadAs

theorem restores_nil (type : ScalarType) (v : Value) : type.Restores v [] where
  reads := ⟨none, decode_nil type⟩
  absent := decode_eq_none_iff
  again _ hw := absurd rfl (ne_nil_of_decode hw)
  own _ hw := absurd rfl (ne_nil_of_decode hw)

/-! ## What is lost -/

/-- A variant with white space around it is read without it, if it is read at all. -/
theorem not_restores_of_trim {e : EnumType} {variant : String} (h : Text.trim variant ≠ variant) :
    ¬ (ScalarType.enum e).Restores v (Utf8.encode variant) := by
  intro hr
  have hne : variant ≠ "" := by
    rintro rfl
    exact h rfl
  obtain ⟨w?, hw⟩ := hr.reads
  cases w? with
  | none => exact hne (Utf8.encode_eq_nil_iff.1 (hr.absent.1 hw))
  | some w =>
    have hagain := hr.again w hw
    have htext := (decode_encode_eq_some_iff.1 hw).2
    rw [decodeText] at htext
    split at htext
    · next hd =>
      cases htext
      rw [encode_eq_ok_iff_of_isScalar rfl, encodeScalar, if_pos hd] at hagain
      exact h (Utf8.encode_injective (Except.ok.inj hagain))
    · cases htext

theorem not_restores_of_not_inRange {t : Calendar.Instant} (h : ¬ t.InRange) :
    ¬ ScalarType.date.Restores v (Utf8.encode (.ofList (Calendar.dateText t))) := by
  intro hr
  obtain ⟨w?, hw⟩ := hr.reads
  cases w? with
  | none =>
    have hnil := Utf8.encode_eq_nil_iff.1 (hr.absent.1 hw)
    have hread := Number.readInt_intText (by decide) (Calendar.millis_mem t)
    rw [← Calendar.dateText, String.ofList_eq_empty_iff.1 hnil] at hread
    cases hread
  | some w =>
    have htext := (decode_encode_eq_some_iff.1 hw).2
    have hnone : Calendar.Instant.ofMillis? t.millis = none :=
      Option.eq_none_iff_forall_ne_some.2 fun u hu => h ⟨u, hu⟩
    rw [decodeText_dateText, hnone] at htext
    cases htext

theorem Misread.not_restores (hm : Misread type v) (h : type.encode v = .ok bs) :
    ¬ type.Restores v bs := by
  cases hm with
  | variant ht =>
    rw [encode_eq_ok_iff_of_isScalar rfl, encodeScalar] at h
    split_ifs at h
    exact Except.ok.inj h ▸ not_restores_of_trim ht
  | text ht =>
    rw [encode_eq_ok_iff_of_isScalar rfl, encodeScalar] at h
    split_ifs at h
    exact Except.ok.inj h ▸ not_restores_of_trim ht
  | leap hl hs =>
    rw [encode_eq_ok_iff_of_isScalar rfl] at h
    exact Except.ok.inj h ▸
      not_restores_of_not_inRange (Calendar.Instant.not_inRange_iff.2 ⟨hl, hs⟩)

/-- **What a value is written as is restored, unless it is misread.** -/
theorem restores_iff (hf : type.kind ≠ .float) (h : type.encode v = .ok bs) :
    type.Restores v bs ↔ ¬ Misread type v := by
  constructor
  · exact fun hr hm => hm.not_restores h hr
  · intro hm
    by_cases hne : bs = []
    · exact hne ▸ restores_nil type v
    · obtain ⟨w, hw⟩ := exists_readAs hf hm (encodeScalar_of_encode hne h)
      exact hw.restores

/-! ## Sizes -/

/-- The sizes of shirts. One of them was declared with a blank behind it. -/
def sizes : EnumType := ⟨"Size", ["S", "L "]⟩

theorem encode_sizes {variant : String} (h : sizes.declares variant = true) :
    (ScalarType.enum sizes).encode (.enum variant) = .ok (Utf8.encode variant) := by
  rw [encode_eq_ok_iff_of_isScalar rfl, encodeScalar, if_pos h]

/-- The size without a blank is restored, the other one is not. -/
theorem restores_sizes : (ScalarType.enum sizes).kind ≠ .float ∧
    (∀ variant ∈ ["S", "L "],
      (ScalarType.enum sizes).encode (.enum variant) = .ok (Utf8.encode variant)) ∧
    (ScalarType.enum sizes).Restores (.enum "S") (Utf8.encode "S") ∧
    ¬ (ScalarType.enum sizes).Restores (.enum "L ") (Utf8.encode "L ") := by
  have hsmall : Text.trim "S" = "S" := by decide +kernel
  have hlarge : Text.trim "L " ≠ "L " := by decide +kernel
  refine ⟨by decide, fun variant h => encode_sizes (List.contains_iff_mem.2 h), ?_, ?_⟩
  · refine (restores_iff (by decide) (encode_sizes (by decide))).2 ?_
    rintro (h | _ | _)
    exact h hsmall
  · exact fun h => (restores_iff (by decide) (encode_sizes (by decide))).1 h (.variant hlarge)

/-- Not everything that is written as a type can be read as the type. -/
theorem not_forall_decode_of_encode : ¬ ∀ (type : ScalarType) (v : Value) (bs : Bytes),
    type.kind ≠ .float → type.encode v = .ok bs → ∃ w?, type.decode bs = .ok w? := by
  intro h
  obtain ⟨w?, hw⟩ := h (.enum sizes) (.enum "L ") _ (by decide) (encode_sizes (by decide))
  have hfail : ((ScalarType.enum sizes).decode (Utf8.encode "L ")).toBool = false := by
    decide +kernel
  rw [hw] at hfail
  cases hfail

end ScalarType

end FlatGraph
