import FlatGraph.Proofs.Scalar.Integers

/-!
# Stored dates

A date is stored as its milliseconds since 1970, rounded down. Instants are counted in nanoseconds
(`Instant.sinceEpoch`), so that rounding down is division, before 1970 as after it.

* **One way.** An instant outside of leap seconds is written as the number of its millisecond, and
  read as the start of it (`decode_millis`).
* **The other way.** An integer of 64 bits is read as the start of the millisecond that it numbers,
  if that lies in the years of the calendar (`ofMillis?_eq_some_iff`, `ofMillis?_eq_none_iff`).
* **First come, first served.** What is read as an integer is not read in any other form, even if
  the calendar does not have its millisecond (`readDateBy_of_denotes`).

Leap seconds are left out because their milliseconds are also those of the second after them.
-/

namespace FlatGraph

namespace Calendar

/-! ## The count of nanoseconds -/

namespace Instant

variable {t u : Instant} {m : Int}

/-- The nanoseconds since the start of 1970. -/
def sinceEpoch (t : Instant) : Int := t.seconds * 1000000000 + t.nanos

/-- Instants come in the order of their seconds, and of their nanoseconds within a second. -/
instance : LE Instant where
  le t u := t.seconds < u.seconds ∨ t.seconds = u.seconds ∧ t.nanos ≤ u.nanos

theorem nanos_lt_of_not_leap (h : t.isLeap = false) : t.nanos < 1000000000 := by
  simpa [isLeap] using h

/-- Outside of leap seconds, the order is that of the counts. -/
theorem le_iff (ht : t.isLeap = false) (hu : u.isLeap = false) :
    t ≤ u ↔ t.sinceEpoch ≤ u.sinceEpoch := by
  have hnanos := nanos_lt_of_not_leap ht
  have hnanos' := nanos_lt_of_not_leap hu
  show t.seconds < u.seconds ∨ t.seconds = u.seconds ∧ t.nanos ≤ u.nanos ↔ _
  unfold sinceEpoch
  omega

theorem millis_eq (t : Instant) : t.millis = t.sinceEpoch / 1000000 := by
  unfold millis sinceEpoch
  omega

/-- The instant is the start of the millisecond in which another one lies. -/
structure StartsMilli (u t : Instant) : Prop where
  not_leap : u.isLeap = false
  whole : 1000000 ∣ u.sinceEpoch
  le : u ≤ t
  lt : t.sinceEpoch < u.sinceEpoch + 1000000

theorem not_leap_startOfMilli (h : t.isLeap = false) : t.startOfMilli.isLeap = false := by
  have hnanos := nanos_lt_of_not_leap h
  have hstart : t.startOfMilli.nanos = t.nanos / 1000000 * 1000000 := rfl
  simp only [isLeap, decide_eq_false_iff_not]
  omega

theorem sinceEpoch_startOfMilli (t : Instant) :
    t.startOfMilli.sinceEpoch = t.sinceEpoch / 1000000 * 1000000 := by
  show t.seconds * 1000000000 + (t.nanos / 1000000 * 1000000 : Nat) = _
  unfold sinceEpoch
  omega

theorem startsMilli_startOfMilli (h : t.isLeap = false) : t.startOfMilli.StartsMilli t where
  not_leap := not_leap_startOfMilli h
  whole := sinceEpoch_startOfMilli t ▸ Int.dvd_mul_left _ _
  le := by
    rw [le_iff (not_leap_startOfMilli h) h, sinceEpoch_startOfMilli]
    omega
  lt := by
    rw [sinceEpoch_startOfMilli]
    omega

/-! ## The calendar's milliseconds -/

/-- The milliseconds from the start of the year -262143 to the end of the year 262142. -/
def millisRange : Set Int :=
  Set.Ico ((⟨-262143, 1, 1⟩ : Date).toDay * 86400000) ((⟨262143, 1, 1⟩ : Date).toDay * 86400000)

theorem mem_millisRange_iff :
    m ∈ millisRange ↔ leastSecond ≤ m / 1000 ∧ m / 1000 ≤ greatestSecond := by
  have hleast : (⟨-262143, 1, 1⟩ : Date).toDay = -96465292 := by decide
  have hgreatest : (⟨262143, 1, 1⟩ : Date).toDay = 95026237 := by decide
  rw [millisRange, hleast, hgreatest, Set.mem_Ico]
  show _ ↔ -8334601228800 ≤ m / 1000 ∧ m / 1000 ≤ 8210266876799
  omega

/-- **A number of milliseconds stands for the instant that is so many milliseconds after the start
of 1970.** -/
theorem ofMillis?_eq_some_iff :
    ofMillis? m = some t ↔ t.isLeap = false ∧ t.sinceEpoch = m * 1000000 := by
  constructor
  · intro h
    unfold ofMillis? of? at h
    split_ifs at h
    cases h
    simp only [isLeap, sinceEpoch, decide_eq_false_iff_not]
    omega
  · rintro ⟨hleap, hm⟩
    have hmillis : t.millis = m := by
      rw [millis_eq, hm]
      omega
    have hstart : t.startOfMilli = t := by
      have hcount := sinceEpoch_startOfMilli t
      have hseconds : t.startOfMilli.seconds = t.seconds := rfl
      simp only [sinceEpoch] at hcount hm
      rw [mk.injEq]
      exact ⟨rfl, by omega⟩
    rw [← hmillis, ofMillis?_millis hleap, hstart]

theorem ofMillis?_eq_none_iff : ofMillis? m = none ↔ m ∉ millisRange := by
  rw [mem_millisRange_iff]
  unfold ofMillis? of?
  split_ifs with h
  · exact iff_of_false (by simp) fun hno => hno ⟨h.1, h.2.1⟩
  · exact iff_of_true rfl fun hrange => h ⟨hrange.1, hrange.2, by omega, by omega⟩

end Instant

/-! ## Reading dates -/

/-- The forms of dates besides milliseconds: timestamps and the layouts. -/
def otherForms (s : String) : Option Instant :=
  Scan.whole Scan.timestamp s <|> dateLayouts.findSome? (·.read s)

/-- Reads a date, with the given forms besides milliseconds. -/
def readDateBy (forms : String → Option Instant) (s : String) : Except DateFault Instant :=
  match Number.readInt Number.leastSigned Number.greatestSigned s.toList with
  | .ok m =>
    match Instant.ofMillis? m with
    | some t => .ok t
    | none => .error .outOfRange
  | .error _ =>
    match forms s with
    | some t => .ok t
    | none => .error .unknownForm

theorem readDate_eq : readDate = readDateBy otherForms := rfl

/-- **What denotes an integer is read without a look at any other form.** -/
theorem readDateBy_of_denotes {s : String} {m : Int} (h : Number.Denotes s.toList m)
    (hm : Number.leastSigned ≤ m ∧ m ≤ Number.greatestSigned)
    (forms : String → Option Instant) :
    readDateBy forms s = (Instant.ofMillis? m).elim (.error .outOfRange) .ok := by
  rw [readDateBy, (Number.readInt_eq_ok_iff (by decide)).2 ⟨h, hm⟩]
  dsimp only
  cases Instant.ofMillis? m <;> rfl

end Calendar

namespace ScalarType

open Calendar (Instant)

variable {bs : Bytes} {m : Int} {t : Instant}

theorem decode_date_eq (h : SpellsInt bs m)
    (hm : Number.leastSigned ≤ m ∧ m ≤ Number.greatestSigned) :
    ScalarType.date.decode bs = (Instant.ofMillis? m).elim
      (.error (.conversion "date" (Utf8.lossy bs) (.notDate .outOfRange)))
      (fun t => .ok (some (.date t))) := by
  obtain ⟨s, hs, hdenotes⟩ := spellsInt_iff.1 h
  rw [decode_of_ne (by simp) h.ne_nil, hs]
  dsimp only
  rw [decodeText, Calendar.readDate_eq, Calendar.readDateBy_of_denotes hdenotes hm]
  cases Instant.ofMillis? m <;> rfl

theorem encode_date (t : Instant) : ScalarType.date.encode (.date t) =
    .ok (Utf8.encode (toString (t.sinceEpoch / 1000000))) := by
  rw [encode_eq_ok_iff_of_isScalar rfl, encodeScalar]
  dsimp only
  rw [Calendar.dateText, ofList_intText, Instant.millis_eq]

/-- **The number of a millisecond is read as its start.** -/
theorem decode_millis (h : t.isLeap = false) :
    ScalarType.date.decode (Utf8.encode (toString (t.sinceEpoch / 1000000))) =
      .ok (some (.date t.startOfMilli)) := by
  rw [← Instant.millis_eq, decode_date_eq (spellsInt_toString _) (Calendar.millis_mem t),
    Instant.ofMillis?_millis h]
  rfl

/-- **Dates survive to the millisecond, from one end of the calendar to the other.** -/
theorem date_codec :
    (∀ t : Instant, t.isLeap = false → ∃ u : Instant, u.StartsMilli t ∧
      ScalarType.date.encode (.date t) =
        .ok (Utf8.encode (toString (t.sinceEpoch / 1000000))) ∧
      ScalarType.date.decode (Utf8.encode (toString (t.sinceEpoch / 1000000))) =
        .ok (some (.date u)) ∧
      ScalarType.date.encode (.date u) =
        .ok (Utf8.encode (toString (t.sinceEpoch / 1000000)))) ∧
    (∀ t t' : Instant, t.isLeap = false → t'.isLeap = false → t ≤ t' →
      t.sinceEpoch / 1000000 ≤ t'.sinceEpoch / 1000000) ∧
    (∀ (bs : Bytes) (m : Int), SpellsInt bs m → m ∈ Set.Ico (-2 ^ 63) (2 ^ 63) →
      (m ∈ Instant.millisRange → ∃ t : Instant, t.isLeap = false ∧
        t.sinceEpoch = m * 1000000 ∧ ScalarType.date.decode bs = .ok (some (.date t))) ∧
      (m ∉ Instant.millisRange → ScalarType.date.decode bs =
        .error (.conversion "date" (Utf8.lossy bs) (.notDate .outOfRange))) ∧
      ∀ forms s, Utf8.decode bs = .ok s →
        Calendar.readDateBy forms (Text.trim s) = Calendar.readDate (Text.trim s)) := by
  refine ⟨?_, ?_, ?_⟩
  · intro t ht
    refine ⟨t.startOfMilli, Instant.startsMilli_startOfMilli ht, encode_date t,
      decode_millis ht, ?_⟩
    rw [encode_date, Instant.sinceEpoch_startOfMilli,
      Int.mul_ediv_cancel _ (by decide)]
  · intro t t' ht ht' hle
    exact Int.ediv_le_ediv (by decide) ((Instant.le_iff ht ht').1 hle)
  · intro bs m hbs hm
    have hword : Number.leastSigned ≤ m ∧ m ≤ Number.greatestSigned := by
      rw [Set.mem_Ico] at hm
      norm_num at hm ⊢
      omega
    rw [decode_date_eq hbs hword]
    refine ⟨?_, ?_, ?_⟩
    · intro hrange
      cases ht : Instant.ofMillis? m with
      | none => exact absurd hrange (Instant.ofMillis?_eq_none_iff.1 ht)
      | some t =>
        obtain ⟨hleap, hcount⟩ := Instant.ofMillis?_eq_some_iff.1 ht
        exact ⟨t, hleap, hcount, rfl⟩
    · intro hrange
      rw [Instant.ofMillis?_eq_none_iff.2 hrange]
      rfl
    · intro forms s hs
      obtain ⟨s', hs', hdenotes⟩ := spellsInt_iff.1 hbs
      cases hs.symm.trans hs'
      rw [Calendar.readDate_eq, Calendar.readDateBy_of_denotes hdenotes hword,
        Calendar.readDateBy_of_denotes hdenotes hword]

/-- The last nanosecond before 1970. -/
def eve : Instant := ⟨-1, 999999999, by decide, by decide, by decide, by decide⟩

/-- The first nanosecond after the start of 1970. -/
def newYear : Instant := ⟨0, 1, by decide, by decide, by decide, by decide⟩

/-- The last nanosecond before 1970 is written as minus one, and read as a millisecond before 1970.
The first millisecond after the last year is an error. -/
theorem date_codec_eve :
    (eve.isLeap = false ∧ newYear.isLeap = false ∧ eve ≤ newYear ∧
      eve.sinceEpoch / 1000000 ≤ newYear.sinceEpoch / 1000000) ∧
    ScalarType.date.encode (.date eve) = .ok (Utf8.encode "-1") ∧
    (∃ u : Instant, u.StartsMilli eve ∧
      ScalarType.date.decode (Utf8.encode "-1") = .ok (some (.date u))) ∧
    SpellsInt (Utf8.encode "8210266876800000") 8210266876800000 ∧
    ScalarType.date.decode (Utf8.encode "8210266876800000") =
      .error (.conversion "date" "8210266876800000" (.notDate .outOfRange)) := by
  obtain ⟨hmilli, hordered, hread⟩ := date_codec
  have hle : eve ≤ newYear := Or.inl (by decide)
  have hone : toString (eve.sinceEpoch / 1000000) = "-1" := by decide +kernel
  obtain ⟨u, hu, hwritten, hdecoded, -⟩ := hmilli eve (by decide)
  rw [hone] at hwritten hdecoded
  have hspells : SpellsInt (Utf8.encode "8210266876800000") 8210266876800000 :=
    spellsInt_toString 8210266876800000
  have hbeyond : (8210266876800000 : Int) ∉ Instant.millisRange := by
    rw [Instant.mem_millisRange_iff]
    decide
  have herror := (hread _ _ hspells (by simp)).2.1 hbeyond
  rw [Utf8.lossy_encode] at herror
  exact ⟨⟨by decide, by decide, hle, hordered _ _ (by decide) (by decide) hle⟩, hwritten,
    ⟨u, hu, hdecoded⟩, hspells, herror⟩

end ScalarType

end FlatGraph
