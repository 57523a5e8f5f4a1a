import FlatGraph.Proofs.Number.Order
import FlatGraph.Proofs.Scalar.Decode
import FlatGraph.Proofs.Text.Blank
import FlatGraph.Proofs.Text.Utf8

/-!
# Key texts written again

A key text of a map is read as a key, which is written as a text again (`ScalarType.Recodes`). This
text need not be the first one: numbers lose leading zeros, variants and dates the white space
around them.

* A text that was written once is written again as it is (`Respelled.again`), except perhaps for
  single precision, where it is read in double precision and rounded back.
* Key texts that are only permuted are written as they are (`eq_of_recodes_perm`), in single
  precision because what is read and rounded keeps the order of the keys.
-/

namespace FlatGraph

open Number (Floating binary32 binary64)

/-! ## Numerals -/

/-- A character that occurs in the text of a number. -/
def IsNumeral (c : Char) : Prop :=
  c.isDigit = true ∨ c ∈ ['-', '.', 'i', 'n', 'f', 'N', 'a']

theorem isBlank_of_isNumeral {c : Char} (h : IsNumeral c) : Text.isBlank c = false := by
  rcases h with h | h
  · have hrange : 48 ≤ c.toNat ∧ c.toNat ≤ 57 := by
      simpa [Char.isDigit, UInt32.le_iff_toNat_le] using h
    simp [Text.isBlank, Text.blankRanges]
    omega
  · revert h
    revert c
    simp
    decide

theorem not_isNumeral_bracket : ¬ IsNumeral ']' := by
  unfold IsNumeral
  decide

theorem isNumeral_of_mem_intText {n : Int} {c : Char} (h : c ∈ Number.intText n) :
    IsNumeral c := by
  have hdigit : c ∈ Number.natText n.natAbs → IsNumeral c := fun h =>
    Or.inl ((Number.isDigits_natText _).2 c h)
  unfold Number.intText at h
  split at h
  · rcases List.mem_cons.1 h with rfl | h
    · exact Or.inr (by simp)
    · exact hdigit h
  · exact hdigit h

theorem trim_of_isNumeral {cs : List Char} (h : ∀ c ∈ cs, IsNumeral c) :
    Text.trim (String.ofList cs) = String.ofList cs :=
  Text.trim_eq_self fun c hc => isBlank_of_isNumeral (h c (by rwa [String.toList_ofList] at hc))

/-- The text of a number is read as it is, as it has no white space around it. -/
theorem toList_trim_of_isNumeral {cs : List Char} (h : ∀ c ∈ cs, IsNumeral c) :
    (Text.trim (String.ofList cs)).toList = cs := by
  rw [trim_of_isNumeral h, String.toList_ofList]

/-! ## Dates -/

namespace Calendar

theorem millis_of_ofMillis? {m : Int} {t : Instant} (h : Instant.ofMillis? m = some t) :
    t.millis = m := by
  unfold Instant.ofMillis? Instant.of? at h
  split at h
  · cases h
    unfold Instant.millis
    dsimp only
    omega
  · cases h

/-- The milliseconds of an instant are an integer of 64 bits. -/
theorem millis_mem (t : Instant) :
    Number.leastSigned ≤ t.millis ∧ t.millis ≤ Number.greatestSigned := by
  have hleast : -8334601228800 ≤ t.seconds := t.least_le
  have hgreatest : t.seconds ≤ 8210266876799 := t.le_greatest
  have hnanos := t.nanos_lt
  unfold Instant.millis
  constructor <;> norm_num <;> omega

/-- What is read from the text of a date is the start of its millisecond, if there is one. -/
theorem readDate_dateText (t : Instant) :
    readDate (String.ofList (dateText t)) =
      (Instant.ofMillis? t.millis).elim (.error .outOfRange) .ok := by
  rw [readDate, dateText, String.toList_ofList,
    Number.readInt_intText (by decide) (millis_mem t)]
  dsimp only
  cases Instant.ofMillis? t.millis <;> rfl

/-- A date is read from its text with its milliseconds. -/
theorem millis_of_readDate {t u : Instant}
    (h : readDate (String.ofList (dateText t)) = .ok u) : u.millis = t.millis := by
  rw [readDate_dateText] at h
  cases hm : Instant.ofMillis? t.millis with
  | none =>
    rw [hm] at h
    cases h
  | some u' =>
    rw [hm] at h
    cases h
    exact millis_of_ofMillis? hm

end Calendar

namespace ScalarType

variable {key : ScalarType} {s t u : String}

/-- The second text is written for the key that the first one is read as. -/
def Recodes (key : ScalarType) (s t : String) : Prop :=
  ∃ k, key.decode (Utf8.encode s) = .ok (some k) ∧ key.keyText k = .ok t

theorem keyText_eq_ok_iff {v : Value} (h : v.isScalar = true) :
    key.keyText v = .ok t ↔ ∃ bs, key.encodeScalar v = .ok bs ∧ Utf8.lossy bs = t := by
  rw [keyText, Outcome.map_eq_ok_iff]
  refine exists_congr fun bs => and_congr_left fun _ => ?_
  cases v <;> first | exact Outcome.mapError_eq_ok_iff | cases h

theorem decode_encode_eq_some_iff {v : Value} :
    key.decode (Utf8.encode s) = .ok (some v) ↔ s ≠ "" ∧ key.decodeText s = .ok v := by
  by_cases hb : key = .bytes
  · subst hb
    by_cases hs : s = ""
    · rw [hs, show Utf8.encode "" = [] from rfl, decode_nil]
      simp
    · rw [decode_bytes (mt Utf8.encode_eq_nil_iff.1 hs)]
      simp [decodeText, hs]
  · simp [decode_eq_some_iff hb]

/-- The text that is written for what a text is read as, for each type. -/
inductive Respelled : ScalarType → String → String → Prop
  | text (s : String) : Respelled .text s s
  | bytes (s : String) : Respelled .bytes s s
  | bool (s : String) : Respelled .bool s (if isTrueText s then "1" else "0")
  | enum {e : EnumType} {s : String} (h : e.declares (Text.trim s) = true) :
      Respelled (.enum e) s (Text.trim s)
  | int {w : Width} {s : String} {n : Int}
      (h : Number.readInt w.least w.greatest (Text.trim s).toList = .ok n)
      (hw : w.holds (Int64.ofInt n).toInt = true) :
      Respelled (.int w) s (String.ofList (Number.intText (Int64.ofInt n).toInt))
  | date {s : String} {d : Calendar.Instant} (h : Calendar.readDate (Text.trim s) = .ok d) :
      Respelled .date s (String.ofList (Calendar.dateText d))
  | float64 {s : String} {x : Floating binary64}
      (h : Floating.read binary64 (Text.trim s).toList = .ok x) :
      Respelled .float64 s (String.ofList x.text)
  | float32 {s : String} {x y : Floating binary32}
      (h : Floating.read binary32 (Text.trim s).toList = .ok x) (hy : narrow? (widen x) = some y) :
      Respelled .float32 s (String.ofList y.text)

theorem Respelled.exists_value (h : Respelled key s t) : ∃ v bs,
    key.decodeText s = .ok v ∧ key.encodeScalar v = .ok bs ∧ Utf8.lossy bs = t := by
  cases h with
  | text => exact ⟨_, _, rfl, rfl, Utf8.lossy_encode _⟩
  | bytes => exact ⟨_, _, rfl, rfl, Utf8.lossy_encode _⟩
  | bool => exact ⟨_, _, rfl, rfl, Utf8.lossy_encode _⟩
  | enum h =>
    exact ⟨.enum _, _, by rw [decodeText, if_pos h], by rw [encodeScalar, if_pos h],
      Utf8.lossy_encode _⟩
  | int h hw =>
    exact ⟨_, _, by rw [decodeText, h], by rw [encodeScalar, if_pos hw], Utf8.lossy_encode _⟩
  | date h => exact ⟨_, _, by rw [decodeText, h], rfl, Utf8.lossy_encode _⟩
  | float64 h => exact ⟨_, _, by rw [decodeText, h], rfl, Utf8.lossy_encode _⟩
  | float32 h hy =>
    exact ⟨_, _, by rw [decodeText, h], by rw [encodeScalar, hy], Utf8.lossy_encode _⟩

theorem respelled_of_encodeScalar {v : Value} {bs : Bytes} (hv : key.decodeText s = .ok v)
    (hbs : key.encodeScalar v = .ok bs) : Respelled key s (Utf8.lossy bs) := by
  -- Bytes are only ever written as the encoding of a text.
  have hlossy : ∀ {text}, Utf8.encode text = bs → Respelled key s text →
      Respelled key s (Utf8.lossy bs) := by
    rintro text rfl h
    rwa [Utf8.lossy_encode]
  cases key with
  | text =>
    cases hv
    exact hlossy (Except.ok.inj hbs) (.text s)
  | bytes =>
    cases hv
    exact hlossy (Except.ok.inj hbs) (.bytes s)
  | bool =>
    cases hv
    exact hlossy (Except.ok.inj hbs) (.bool s)
  | enum e =>
    rw [decodeText] at hv
    split at hv
    · next h =>
      cases hv
      rw [encodeScalar, if_pos h] at hbs
      exact hlossy (Except.ok.inj hbs) (.enum h)
    · cases hv
  | int w =>
    rw [decodeText] at hv
    split at hv
    · next n h =>
      cases hv
      rw [encodeScalar] at hbs
      split at hbs
      · next hw => exact hlossy (Except.ok.inj hbs) (.int h hw)
      · cases hbs
    · cases hv
  | date =>
    rw [decodeText] at hv
    split at hv
    · next d h =>
      cases hv
      exact hlossy (Except.ok.inj hbs) (.date h)
    · cases hv
  | float64 =>
    rw [decodeText] at hv
    split at hv
    · next x h =>
      cases hv
      exact hlossy (Except.ok.inj hbs) (.float64 h)
    · cases hv
  | float32 =>
    rw [decodeText] at hv
    split at hv
    · next x h =>
      cases hv
      rw [encodeScalar] at hbs
      split at hbs
      · next y hy => exact hlossy (Except.ok.inj hbs) (.float32 h hy)
      · cases hbs
    · cases hv

/-- A text is read as a value that can be written exactly if it is respelled. -/
theorem respelled_iff : Respelled key s t ↔ ∃ v bs,
    key.decodeText s = .ok v ∧ key.encodeScalar v = .ok bs ∧ Utf8.lossy bs = t := by
  refine ⟨Respelled.exists_value, ?_⟩
  rintro ⟨v, bs, hv, hbs, rfl⟩
  exact respelled_of_encodeScalar hv hbs

/-- A key text is not empty. -/
theorem recodes_iff : key.Recodes s t ↔ s ≠ "" ∧ Respelled key s t := by
  rw [respelled_iff]
  unfold Recodes
  constructor
  · rintro ⟨v, hv, ht⟩
    obtain ⟨hs, hv⟩ := decode_encode_eq_some_iff.1 hv
    obtain ⟨bs, hbs, ht⟩ := (keyText_eq_ok_iff (isScalar_of_decodeText hv)).1 ht
    exact ⟨hs, v, bs, hv, hbs, ht⟩
  · rintro ⟨hs, v, bs, hv, hbs, ht⟩
    exact ⟨v, decode_encode_eq_some_iff.2 ⟨hs, hv⟩,
      (keyText_eq_ok_iff (isScalar_of_decodeText hv)).2 ⟨bs, hbs, ht⟩⟩

theorem Recodes.respelled (h : key.Recodes s t) : Respelled key s t := (recodes_iff.1 h).2

/-! ## Texts that were written -/

theorem holds_iff {w : Width} {n : Int} : w.holds n = true ↔ w.least ≤ n ∧ n ≤ w.greatest := by
  simp [Width.holds]

theorem zero_mem (w : Width) : w.least ≤ 0 ∧ 0 ≤ w.greatest := by cases w <;> decide

theorem decodeText_intText {w : Width} {n : Int64} (h : w.holds n.toInt = true) :
    (ScalarType.int w).decodeText (.ofList (Number.intText n.toInt)) = .ok (.integer n) := by
  rw [decodeText, toList_trim_of_isNumeral fun _ => isNumeral_of_mem_intText,
    Number.readInt_intText (zero_mem w) (holds_iff.1 h)]
  simp only [Int64.ofInt_toInt]

theorem decodeText_dateText (t : Calendar.Instant) :
    ScalarType.date.decodeText (.ofList (Calendar.dateText t)) =
      (Calendar.Instant.ofMillis? t.millis).elim (.error (.notDate .outOfRange))
        fun u => .ok (.date u) := by
  rw [decodeText, Calendar.dateText, trim_of_isNumeral fun _ => isNumeral_of_mem_intText,
    ← Calendar.dateText, Calendar.readDate_dateText]
  cases Calendar.Instant.ofMillis? t.millis <;> rfl

/-- **What was written for a key is written again as it is**, except perhaps in single precision. -/
theorem Respelled.again (hk : key ≠ .float32) (h : Respelled key s t) (h' : Respelled key t u) :
    u = t := by
  cases h with
  | text => cases h' with | text => rfl
  | bytes => cases h' with | bytes => rfl
  | bool =>
    cases h' with
    | bool => by_cases hs : isTrueText s = true <;> simp only [hs, if_true] <;> rfl
  | enum => cases h' with | enum => exact Text.trim_trim s
  | @int w _ n _ hw =>
    cases h' with
    | int hm =>
      rw [toList_trim_of_isNumeral fun _ => isNumeral_of_mem_intText,
        Number.readInt_intText (zero_mem w) (holds_iff.1 hw)] at hm
      cases hm
      rw [Int64.ofInt_toInt]
  | date =>
    cases h' with
    | date hd =>
      rw [Calendar.dateText, trim_of_isNumeral fun _ => isNumeral_of_mem_intText] at hd
      rw [Calendar.dateText, Calendar.dateText, Calendar.millis_of_readDate hd]
  | float64 =>
    cases h' with
    | float64 hx =>
      rw [toList_trim_of_isNumeral fun _ => Floating.mem_text,
        Floating.read_text_self Number.wide_binary64] at hx
      cases hx
      rfl
  | float32 => exact absurd rfl hk

/-- What is written for a key has no bracket that the text it was read from does not have. -/
theorem not_mem_bracket_of_recodes (h : key.Recodes s t) (hs : ']' ∉ s.toList) :
    ']' ∉ t.toList := by
  have hnumeral : ∀ {cs : List Char}, (∀ c ∈ cs, IsNumeral c) →
      ']' ∉ (String.ofList cs).toList := fun hcs hm =>
    not_isNumeral_bracket (hcs _ (by rwa [String.toList_ofList] at hm))
  cases h.respelled with
  | text => exact hs
  | bytes => exact hs
  | bool => split <;> decide
  | enum => exact fun hm => hs (Text.mem_of_mem_trim hm)
  | int => exact hnumeral fun _ => isNumeral_of_mem_intText
  | date => exact hnumeral fun _ => isNumeral_of_mem_intText
  | float64 => exact hnumeral fun _ => Floating.mem_text
  | float32 => exact hnumeral fun _ => Floating.mem_text

/-! ## Single precision -/

theorem widen_eq (x : Floating binary32) : widen x = x.reread binary64 := by
  rw [widen, Floating.read_text Number.wide_binary64]

/-- A text in single precision is written again as that of the number that double precision makes
of it. -/
theorem eq_detour_of_respelled {x : Floating binary32}
    (h : Respelled .float32 (String.ofList x.text) t) :
    String.ofList (x.detour binary64).text = t := by
  cases h with
  | float32 hx hy =>
    rw [toList_trim_of_isNumeral fun _ => Floating.mem_text,
      Floating.read_text_self Number.wide_binary32] at hx
    cases hx
    unfold narrow? at hy
    split at hy
    · cases hy
    · cases hy
      rw [widen_eq]
      rfl

/-- The number of a text in single precision. -/
def single (s : String) : Floating binary32 :=
  (Floating.read binary32 s.toList).toOption.getD .nan

theorem single_text (x : Floating binary32) : single (String.ofList x.text) = x := by
  rw [single, String.toList_ofList, Floating.read_text_self Number.wide_binary32]
  rfl

theorem eq_of_single_perm {ss ts : List String} (h : List.Forall₂ (Recodes .float32) ss ts)
    (hp : ss.Perm ts) : ss = ts := by
  -- Each text was written once, since it is one of those that are written.
  have hform : ∀ s ∈ ss, String.ofList (single s).text = s := by
    intro s hs
    obtain ⟨s', -, hs'⟩ := Lists.exists_left_of_mem h (hp.mem_iff.1 hs)
    cases hs'.respelled with
    | float32 => rw [single_text]
  have hstep : ts = ss.map fun s => String.ofList ((single s).detour binary64).text := by
    have hall : List.Forall₂ (fun s t => String.ofList ((single s).detour binary64).text = t)
        ss ts := Lists.forall₂_imp_mem h fun s hs t _ hr =>
      eq_detour_of_respelled ((hform s hs).symm ▸ hr.respelled)
    rw [← List.forall₂_map_left_iff, List.forall₂_eq_eq_eq] at hall
    exact hall.symm
  have hperm : (ss.map single).Perm ((ss.map single).map (Floating.detour binary64)) := by
    have := hp.map single
    rw [hstep, List.map_map] at this
    rw [List.map_map]
    refine this.trans (List.Perm.of_eq (List.map_congr_left fun s _ => ?_))
    exact single_text _
  rw [hstep]
  refine (List.map_id ss).symm.trans (List.map_congr_left fun s hs => ?_)
  rw [Floating.detour_eq_self_of_perm hperm _ (List.mem_map_of_mem hs), hform s hs]
  rfl

/-- **Key texts that are only permuted are written as they are.** -/
theorem eq_of_recodes_perm {ss ts : List String} (h : List.Forall₂ key.Recodes ss ts)
    (hp : ss.Perm ts) : ss = ts := by
  by_cases hk : key = .float32
  · subst hk
    exact eq_of_single_perm h hp
  · rw [← List.forall₂_eq_eq_eq]
    refine Lists.forall₂_imp_mem h fun s hs t _ hr => ?_
    obtain ⟨s', -, hs'⟩ := Lists.exists_left_of_mem h (hp.mem_iff.1 hs)
    exact (hs'.respelled.again hk hr.respelled).symm

end ScalarType

end FlatGraph
