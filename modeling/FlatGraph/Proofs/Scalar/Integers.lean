import FlatGraph.Proofs.Scalar.Restore
import Mathlib.Data.Int.ConditionallyCompleteOrder

/-!
# Stored integers

Bytes spell an integer (`SpellsInt`) if they are a text that has a sign or none and then digits
between white space. Any number of digits will do, since zeros may lead.

* **Reading.** Of the four types of integers, each reads the bytes that spell an integer of its
  width, and nothing else (`decode_int_eq_some_iff`).
* **Writing.** It writes the integers of its width as their decimal texts, and no other integers
  (`encode_int_eq_ok_iff`).

Both look at the same range: a reader as it goes, digit by digit, a writer at the whole number.
-/

namespace FlatGraph

/-! ## Spelling -/

/-- The bytes are those of a text that denotes the integer, with white space around it. -/
def SpellsInt (bs : Bytes) (n : Int) : Prop :=
  ∃ before digits after : List Char, (∀ c ∈ before ++ after, Text.isBlank c = true) ∧
    Number.Denotes digits n ∧ Utf8.encode (.ofList (before ++ digits ++ after)) = bs

theorem isBlank_of_denotes {cs : List Char} {n : Int} (h : Number.Denotes cs n) :
    ∀ c ∈ cs, Text.isBlank c = false := by
  have hdigits : ∀ ds, Number.IsDigits ds → ∀ c ∈ ds, Text.isBlank c = false := fun ds h c hc =>
    isBlank_of_isNumeral (Or.inl (h.2 c hc))
  cases h with
  | plain h => exact hdigits _ h
  | plus h => exact List.forall_mem_cons.2 ⟨by decide, hdigits _ h⟩
  | minus h => exact List.forall_mem_cons.2 ⟨by decide, hdigits _ h⟩

/-- **Bytes spell the integer that their text denotes once it is trimmed.** -/
theorem spellsInt_iff {bs : Bytes} {n : Int} :
    SpellsInt bs n ↔ ∃ s, Utf8.decode bs = .ok s ∧ Number.Denotes (Text.trim s).toList n := by
  constructor
  · rintro ⟨before, digits, after, hblank, hn, hbs⟩
    refine ⟨_, Utf8.decode_eq_ok_iff.2 hbs, ?_⟩
    have htrim : (Text.trim (.ofList (before ++ digits ++ after))).toList = digits :=
      (Text.toList_trim_eq_iff (isBlank_of_denotes hn)).2
        ⟨before, after, hblank, String.toList_ofList⟩
    rwa [htrim]
  · rintro ⟨s, hs, hn⟩
    obtain ⟨before, after, hblank, hlist⟩ :=
      (Text.toList_trim_eq_iff (isBlank_of_denotes hn)).1 rfl
    refine ⟨before, _, after, hblank, hn, ?_⟩
    rw [← hlist, String.ofList_toList]
    exact Utf8.decode_eq_ok_iff.1 hs

theorem SpellsInt.ne_nil {bs : Bytes} {n : Int} (h : SpellsInt bs n) : bs ≠ [] := by
  rintro rfl
  obtain ⟨s, hs, hn⟩ := spellsInt_iff.1 h
  rw [Utf8.decode_eq_ok_iff, Utf8.encode_eq_nil_iff] at hs
  rw [hs, show (Text.trim "").toList = [] from rfl] at hn
  exact Number.not_isDigits_nil
    ((Number.denotes_iff_of_unsigned (by simp) (by simp)).1 hn).1

theorem toList_toString (n : Int) : (toString n).toList = Number.intText n := by
  unfold Number.intText Number.natText
  cases n with
  | ofNat m =>
    rw [if_neg (by simp)]
    show (Nat.repr m).toList = _
    simp [Nat.repr]
  | negSucc m =>
    rw [if_pos (Int.negSucc_lt_zero m)]
    show ("-" ++ Nat.repr (m + 1)).toList = _
    simp [Nat.repr, String.toList_append]

theorem ofList_intText (n : Int) : String.ofList (Number.intText n) = toString n := by
  rw [← toList_toString, String.ofList_toList]

/-- The decimal text of an integer spells it. -/
theorem spellsInt_toString (n : Int) : SpellsInt (Utf8.encode (toString n)) n := by
  refine ⟨[], _, [], by simp, Number.denotes_intText n, ?_⟩
  rw [List.nil_append, List.append_nil, ofList_intText]

namespace ScalarType

variable {w : Width} {bs : Bytes} {v : Value}

/-! ## Reading -/

theorem decodeText_int_eq_ok_iff {s : String} :
    (ScalarType.int w).decodeText s = .ok v ↔ ∃ n : Int64, v = .integer n ∧
      Number.Denotes (Text.trim s).toList n.toInt ∧ w.holds n.toInt = true := by
  simp only [holds_iff, ← Number.readInt_eq_ok_iff (zero_mem w)]
  rw [decodeText]
  constructor
  · intro h
    split at h
    · next n hn =>
      cases h
      refine ⟨_, rfl, ?_⟩
      rwa [toInt_ofInt_of_mem (Number.mem_of_readInt (zero_mem w) hn)]
    · cases h
  · rintro ⟨n, rfl, hn⟩
    simp only [hn, Int64.ofInt_toInt]

/-- **Bytes are read as the integer that they spell, if it has the width.** -/
theorem decode_int_eq_some_iff :
    (ScalarType.int w).decode bs = .ok (some v) ↔
      ∃ n : Int64, v = .integer n ∧ SpellsInt bs n.toInt ∧ w.holds n.toInt = true := by
  rw [decode_eq_some_iff (by simp)]
  simp only [decodeText_int_eq_ok_iff, spellsInt_iff]
  constructor
  · rintro ⟨-, s, hs, n, hv, hn, hw⟩
    exact ⟨n, hv, ⟨s, hs, hn⟩, hw⟩
  · rintro ⟨n, hv, ⟨s, hs, hn⟩, hw⟩
    exact ⟨(spellsInt_iff.2 ⟨s, hs, hn⟩).ne_nil, s, hs, n, hv, hn, hw⟩

theorem exists_decode_int_iff :
    (∃ v, (ScalarType.int w).decode bs = .ok (some v)) ↔
      ∃ n, SpellsInt bs n ∧ w.holds n = true := by
  simp only [decode_int_eq_some_iff]
  constructor
  · rintro ⟨v, n, -, hn, hw⟩
    exact ⟨n.toInt, hn, hw⟩
  · rintro ⟨n, hn, hw⟩
    have hword : (Int64.ofInt n).toInt = n := toInt_ofInt_of_mem (holds_iff.1 hw)
    exact ⟨_, Int64.ofInt n, rfl, by rwa [hword], by rwa [hword]⟩

/-- **All other bytes are an error**, unless there are none. -/
theorem decode_int_fails_iff :
    (∃ misfit, (ScalarType.int w).decode bs =
        .error (.conversion (ScalarType.int w).name (Utf8.lossy bs) misfit)) ↔
      bs ≠ [] ∧ ∀ n, SpellsInt bs n → w.holds n = false := by
  have hno : (∀ n, SpellsInt bs n → w.holds n = false) ↔
      ¬ ∃ v, (ScalarType.int w).decode bs = .ok (some v) := by
    simp [exists_decode_int_iff]
  rw [hno]
  constructor
  · rintro ⟨misfit, h⟩
    refine ⟨?_, fun ⟨v, hv⟩ => by cases h.symm.trans hv⟩
    rintro rfl
    rw [decode_nil] at h
    cases h
  · rintro ⟨hne, hnone⟩
    cases h : (ScalarType.int w).decode bs with
    | error e =>
      obtain ⟨misfit, rfl⟩ := exists_misfit_of_decode h
      exact ⟨misfit, rfl⟩
    | ok v? =>
      cases v? with
      | none => exact absurd (decode_eq_none_iff.1 h) hne
      | some v => exact absurd ⟨v, h⟩ hnone

/-! ## Writing -/

/-- **An integer is written as its decimal text, if it has the width.** -/
theorem encode_int_eq_ok_iff {n : Int64} :
    (ScalarType.int w).encode (.integer n) = .ok bs ↔
      w.holds n.toInt = true ∧ bs = Utf8.encode (toString n.toInt) := by
  rw [encode_eq_ok_iff_of_isScalar rfl, encodeScalar]
  dsimp only
  rw [ofList_intText]
  split_ifs with hw
  · rw [Except.ok.injEq, and_iff_right hw, eq_comm]
  · exact iff_of_false (by simp) fun h => hw h.1

/-- Reader and writer have one range: they agree on whether the decimal text is that of a value. -/
theorem decode_toString_iff {n : Int64} :
    (ScalarType.int w).decode (Utf8.encode (toString n.toInt)) = .ok (some (.integer n)) ↔
      w.holds n.toInt = true := by
  rw [decode_int_eq_some_iff]
  constructor
  · rintro ⟨m, hm, -, hw⟩
    cases hm
    exact hw
  · intro hw
    exact ⟨n, rfl, spellsInt_toString _, hw⟩

theorem holds_iff_mem_Ico {n : Int} :
    w.holds n = true ↔ n ∈ Set.Ico (-2 ^ (w.bits - 1)) (2 ^ (w.bits - 1)) := by
  rw [holds_iff, Set.mem_Ico]
  show -2 ^ (w.bits - 1) ≤ n ∧ n ≤ 2 ^ (w.bits - 1) - 1 ↔ _
  rw [Int.le_sub_one_iff]

/-- **Each type of integers reads and writes exactly its integers.** No bytes are no value, bytes
that spell an integer of the width are the integer, all other bytes are an error that names the
type and shows them. An integer is written exactly if it has the width, as its decimal text, and
is read back from that. -/
theorem int_codec (w : Width) :
    (∀ bs, (ScalarType.int w).decode bs = .ok none ↔ bs = []) ∧
    (∀ bs v, (ScalarType.int w).decode bs = .ok (some v) ↔ ∃ n : Int64, v = .integer n ∧
      SpellsInt bs n.toInt ∧ n.toInt ∈ Set.Ico (-2 ^ (w.bits - 1)) (2 ^ (w.bits - 1))) ∧
    (∀ bs, (∃ misfit, (ScalarType.int w).decode bs =
        .error (.conversion (ScalarType.int w).name (Utf8.lossy bs) misfit)) ↔
      bs ≠ [] ∧ ¬ ∃ n, SpellsInt bs n ∧ n ∈ Set.Ico (-2 ^ (w.bits - 1)) (2 ^ (w.bits - 1))) ∧
    (∀ (n : Int64) bs, (ScalarType.int w).encode (.integer n) = .ok bs ↔
      n.toInt ∈ Set.Ico (-2 ^ (w.bits - 1)) (2 ^ (w.bits - 1)) ∧
        bs = Utf8.encode (toString n.toInt)) ∧
    (∀ n : Int64, (ScalarType.int w).decode (Utf8.encode (toString n.toInt)) =
        .ok (some (.integer n)) ↔
      n.toInt ∈ Set.Ico (-2 ^ (w.bits - 1)) (2 ^ (w.bits - 1))) := by
  simp only [← holds_iff_mem_Ico]
  refine ⟨fun bs => decode_eq_none_iff, fun bs v => decode_int_eq_some_iff, fun bs => ?_,
    fun n bs => encode_int_eq_ok_iff, fun n => decode_toString_iff⟩
  rw [decode_int_fails_iff]
  simp

end ScalarType

end FlatGraph
