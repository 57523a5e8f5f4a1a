import FlatGraph.Proofs.Outcome
import FlatGraph.Scalar.Decode
import FlatGraph.Scalar.Encode
import FlatGraph.Value

/-!
# Decoded scalars

Bytes stand for a value exactly if there are any and they are text of the right form, except that
all bytes stand for themselves (`decode_eq_some_iff`).
-/

namespace FlatGraph.ScalarType

variable {type : ScalarType} {bs : Bytes} {v : Value} {s : String}

theorem decode_nil (type : ScalarType) : type.decode [] = .ok none := by
  cases type <;> rfl

theorem ne_nil_of_decode (h : type.decode bs = .ok (some v)) : bs ≠ [] := by
  rintro rfl
  rw [decode_nil] at h
  cases h

theorem decode_bytes (h : bs ≠ []) : ScalarType.bytes.decode bs = .ok (some (.bytes bs)) := by
  cases bs with
  | nil => exact absurd rfl h
  | cons b bs => rfl

theorem decode_of_ne (hb : type ≠ .bytes) (hne : bs ≠ []) :
    type.decode bs = match Utf8.decode bs with
      | .error fault => .error (.conversion type.name (Utf8.lossy bs) (.notText fault))
      | .ok s => (some <$> type.decodeText s).mapError
          (.conversion type.name (Utf8.lossy bs)) := by
  cases bs with
  | nil => exact absurd rfl hne
  | cons b bs => cases type <;> first | rfl | exact absurd rfl hb

/-- Bytes of any other type are read as text. -/
theorem decode_eq_some_iff (hb : type ≠ .bytes) :
    type.decode bs = .ok (some v) ↔
      bs ≠ [] ∧ ∃ s, Utf8.decode bs = .ok s ∧ type.decodeText s = .ok v := by
  by_cases hne : bs = []
  · simp [hne, decode_nil]
  rw [decode_of_ne hb hne]
  cases Utf8.decode bs with
  | error fault => simp
  | ok s => simp [Outcome.mapError_eq_ok_iff, Outcome.map_eq_ok_iff, hne]

/-- Only no bytes are no value. -/
theorem decode_eq_none_iff : type.decode bs = .ok none ↔ bs = [] := by
  refine ⟨fun h => ?_, fun h => h ▸ decode_nil type⟩
  by_contra hne
  by_cases hb : type = .bytes
  · rw [hb, decode_bytes hne] at h
    cases h
  · rw [decode_of_ne hb hne] at h
    cases hs : Utf8.decode bs with
    | error fault =>
      rw [hs] at h
      cases h
    | ok s =>
      rw [hs, Outcome.mapError_eq_ok_iff, Outcome.map_eq_ok_iff] at h
      obtain ⟨_, -, h⟩ := h
      cases h

/-- An error names the type and shows the bytes. -/
theorem exists_misfit_of_decode {e : ScalarError} (h : type.decode bs = .error e) :
    ∃ misfit, e = .conversion type.name (Utf8.lossy bs) misfit := by
  by_cases hne : bs = []
  · rw [hne, decode_nil] at h
    cases h
  by_cases hb : type = .bytes
  · rw [hb, decode_bytes hne] at h
    cases h
  rw [decode_of_ne hb hne] at h
  cases hs : Utf8.decode bs with
  | error fault =>
    rw [hs] at h
    cases h
    exact ⟨_, rfl⟩
  | ok s =>
    rw [hs] at h
    cases hv : type.decodeText s with
    | error misfit =>
      simp only [hv] at h
      cases h
      exact ⟨misfit, rfl⟩
    | ok v =>
      simp only [hv] at h
      cases h

theorem isScalar_of_decodeText (h : type.decodeText s = .ok v) : v.isScalar = true := by
  unfold decodeText at h
  dsimp only at h
  split at h
  · cases h; rfl
  · split at h <;> cases h; rfl
  · split at h <;> cases h; rfl
  · split at h <;> cases h; rfl
  · cases h; rfl
  · split at h <;> cases h; rfl
  · split at h <;> cases h; rfl
  · cases h; rfl

/-- What bytes stand for is a scalar. -/
theorem isScalar_of_decode (h : type.decode bs = .ok (some v)) : v.isScalar = true := by
  by_cases hb : type = .bytes
  · subst hb
    rw [decode_bytes (ne_nil_of_decode h)] at h
    cases h
    rfl
  · obtain ⟨-, s, -, hs⟩ := (decode_eq_some_iff hb).1 h
    exact isScalar_of_decodeText hs

theorem isNull_of_decode (h : type.decode bs = .ok (some v)) : v.isNull = false := by
  have := isScalar_of_decode h
  cases v with
  | null => cases this
  | _ => rfl

/-! ## Keys -/

/-- The text that stands for the key of a map entry. -/
def keyText (type : ScalarType) (k : Value) : Except ScalarError String :=
  Utf8.lossy <$> type.encode k

end FlatGraph.ScalarType
