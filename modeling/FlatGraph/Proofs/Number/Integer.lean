import FlatGraph.Number.Integer
import Mathlib.Data.List.Basic
import Mathlib.Tactic.Ring

/-!
# Reading integers

What is read from digits is the number they stand for (`Nat.ofDigitChars`), if it lies in the range
asked for: the number read so far only moves away from zero, so that one check at each digit is as
good as one at the end (`readUp_eq_ok_iff`, `readDown_eq_ok_iff`).

* `readNat_natText`, `readInt_intText`: a number is read back from its text.
* `readInt_eq_ok_iff`: a text is read as an integer exactly if it has a sign or none and then
  digits, however many, that stand for the integer, and the integer lies in the range.
-/

namespace FlatGraph.Number

/-! ## Digits -/

/-- Nothing but digits, and at least one. -/
def IsDigits (cs : List Char) : Prop := cs ≠ [] ∧ ∀ c ∈ cs, c.isDigit = true

theorem isDigits_natText (n : Nat) : IsDigits (natText n) :=
  ⟨Nat.toDigits_ne_nil, fun _ hc => Nat.isDigit_of_mem_toDigits (by decide) (by decide) hc⟩

theorem not_mem_natText {c : Char} (h : c.isDigit = false) (n : Nat) : c ∉ natText n := fun hc => by
  rw [(isDigits_natText n).2 c hc] at h
  cases h

theorem natText_injective : Function.Injective natText := fun m n h => by
  rw [← Nat.ofDigitChars_ten_toDigits (n := m), ← Nat.ofDigitChars_ten_toDigits (n := n)]
  exact congrArg (Nat.ofDigitChars 10 · 0) h

theorem ofDigitChars_cons (c : Char) (cs : List Char) (total : Nat) :
    Nat.ofDigitChars 10 (c :: cs) total = Nat.ofDigitChars 10 cs (10 * total + digitValue c) :=
  Nat.ofDigitChars_cons

theorem le_ofDigitChars (cs : List Char) (total : Nat) : total ≤ Nat.ofDigitChars 10 cs total := by
  induction cs generalizing total with
  | nil => exact le_refl total
  | cons c cs ih =>
    rw [ofDigitChars_cons]
    exact le_trans (by omega) (ih _)

/-! ## Reading digits -/

theorem readUp_eq_ok_iff {greatest : Int} {cs : List Char} {total : Nat} {n : Int}
    (h : (total : Int) ≤ greatest) :
    readUp greatest total cs = .ok n ↔
      (∀ c ∈ cs, c.isDigit = true) ∧ n = Nat.ofDigitChars 10 cs total ∧ n ≤ greatest := by
  induction cs generalizing total with
  | nil =>
    simp only [readUp, Except.ok.injEq, Nat.ofDigitChars_nil]
    constructor
    · rintro rfl
      exact ⟨by simp, rfl, h⟩
    · exact fun hn => hn.2.1.symm
  | cons c cs ih =>
    rw [readUp, ofDigitChars_cons, List.forall_mem_cons]
    by_cases hc : c.isDigit = true
    · have hnext : 10 * (total : Int) + digitValue c =
          ((10 * total + digitValue c : Nat) : Int) := by
        push_cast
        rfl
      simp only [hc, if_true, hnext, true_and]
      split
      · next hle => exact ih hle
      · next hle =>
        refine iff_of_false (fun h => nomatch h) ?_
        rintro ⟨-, rfl, hn⟩
        exact hle (le_trans (Int.ofNat_le.2 (le_ofDigitChars cs _)) hn)
    · simp [hc]

theorem readDown_eq_ok_iff {least : Int} {cs : List Char} {total : Nat} {n : Int}
    (h : least ≤ -(total : Int)) :
    readDown least (-(total : Int)) cs = .ok n ↔
      (∀ c ∈ cs, c.isDigit = true) ∧ n = -(Nat.ofDigitChars 10 cs total : Int) ∧ least ≤ n := by
  induction cs generalizing total with
  | nil =>
    simp only [readDown, Except.ok.injEq, Nat.ofDigitChars_nil]
    constructor
    · rintro rfl
      exact ⟨by simp, rfl, h⟩
    · exact fun hn => hn.2.1.symm
  | cons c cs ih =>
    rw [readDown, ofDigitChars_cons, List.forall_mem_cons]
    by_cases hc : c.isDigit = true
    · have hnext : 10 * -(total : Int) - digitValue c =
          -((10 * total + digitValue c : Nat) : Int) := by
        push_cast
        ring
      simp only [hc, if_true, hnext, true_and]
      split
      · next hle => exact ih hle
      · next hle =>
        refine iff_of_false (fun h => nomatch h) ?_
        rintro ⟨-, rfl, hn⟩
        exact hle (le_trans hn (neg_le_neg (Int.ofNat_le.2 (le_ofDigitChars cs _))))
    · simp [hc]

/-! ## Natural numbers -/

theorem readNat_of_isDigits {greatest : Nat} {cs : List Char} (h : IsDigits cs) :
    readNat greatest cs = (readUp greatest 0 cs).toOption.map Int.toNat := by
  match cs, h with
  | c :: cs, h =>
    have hc : c ≠ '+' := fun hc => by
      have := h.2 c List.mem_cons_self
      rw [hc] at this
      cases this
    unfold readNat
    split
    · contradiction
    · next heq => cases heq; contradiction
    · next heq => cases heq; contradiction
    · rfl

/-- A natural number is read back from its text, if it is not too great. -/
theorem readNat_natText (greatest n : Nat) :
    readNat greatest (natText n) = if n ≤ greatest then some n else none := by
  have hread : ∀ m : Int,
      readUp greatest 0 (natText n) = .ok m ↔ m = n ∧ m ≤ greatest := fun m => by
    rw [show (0 : Int) = ((0 : Nat) : Int) from rfl, readUp_eq_ok_iff (by simp),
      natText, Nat.ofDigitChars_ten_toDigits]
    exact and_iff_right (isDigits_natText n).2
  rw [readNat_of_isDigits (isDigits_natText n)]
  split
  · next h =>
    rw [(hread n).2 ⟨rfl, Int.ofNat_le.2 h⟩]
    rfl
  · next h =>
    cases hr : readUp greatest 0 (natText n) with
    | error e => rfl
    | ok m =>
      obtain ⟨rfl, hm⟩ := (hread m).1 hr
      exact absurd (Int.ofNat_le.1 hm) h

/-! ## Integers -/

/-- The integer that a text denotes: digits, behind one sign or none. -/
inductive Denotes : List Char → Int → Prop
  | plain {ds : List Char} (h : IsDigits ds) : Denotes ds (Nat.ofDigitChars 10 ds 0)
  | plus {ds : List Char} (h : IsDigits ds) : Denotes ('+' :: ds) (Nat.ofDigitChars 10 ds 0)
  | minus {ds : List Char} (h : IsDigits ds) :
      Denotes ('-' :: ds) (-(Nat.ofDigitChars 10 ds 0 : Int))

theorem not_isDigits_nil : ¬ IsDigits [] := fun h => h.1 rfl

theorem not_isDigits_cons {c : Char} (h : c.isDigit = false) (cs : List Char) :
    ¬ IsDigits (c :: cs) := by
  intro hd
  have hc := hd.2 c List.mem_cons_self
  rw [h] at hc
  cases hc

theorem denotes_plus_iff {ds : List Char} {n : Int} :
    Denotes ('+' :: ds) n ↔ IsDigits ds ∧ n = Nat.ofDigitChars 10 ds 0 := by
  constructor
  · intro h
    cases h with
    | plain h => exact absurd h (not_isDigits_cons rfl ds)
    | plus h => exact ⟨h, rfl⟩
  · intro h
    rw [h.2]
    exact .plus h.1

theorem denotes_minus_iff {ds : List Char} {n : Int} :
    Denotes ('-' :: ds) n ↔ IsDigits ds ∧ n = -(Nat.ofDigitChars 10 ds 0 : Int) := by
  constructor
  · intro h
    cases h with
    | plain h => exact absurd h (not_isDigits_cons rfl ds)
    | minus h => exact ⟨h, rfl⟩
  · intro h
    rw [h.2]
    exact .minus h.1

theorem denotes_iff_of_unsigned {cs : List Char} {n : Int} (hp : ∀ ds, cs ≠ '+' :: ds)
    (hm : ∀ ds, cs ≠ '-' :: ds) :
    Denotes cs n ↔ IsDigits cs ∧ n = Nat.ofDigitChars 10 cs 0 := by
  constructor
  · intro h
    cases h with
    | plain h => exact ⟨h, rfl⟩
    | plus h => exact absurd rfl (hp _)
    | minus h => exact absurd rfl (hm _)
  · intro h
    rw [h.2]
    exact .plain h.1

/-- A text denotes what it is the text of. -/
theorem denotes_intText (n : Int) : Denotes (intText n) n := by
  have hdigits := isDigits_natText n.natAbs
  have hvalue : Nat.ofDigitChars 10 (natText n.natAbs) 0 = n.natAbs :=
    Nat.ofDigitChars_ten_toDigits
  unfold intText
  split
  · next hneg =>
    rw [denotes_minus_iff, hvalue]
    exact ⟨hdigits, by omega⟩
  · next hneg =>
    have hplain := Denotes.plain hdigits
    rwa [hvalue, Int.natAbs_of_nonneg (not_lt.1 hneg)] at hplain

/-- Digits above zero cannot pass the lower end of the range. -/
theorem readUp_zero_iff {least greatest n : Int} {ds : List Char}
    (hzero : least ≤ 0 ∧ 0 ≤ greatest) (hne : ds ≠ []) :
    readUp greatest 0 ds = .ok n ↔
      (IsDigits ds ∧ n = Nat.ofDigitChars 10 ds 0) ∧ least ≤ n ∧ n ≤ greatest := by
  rw [show (0 : Int) = ((0 : Nat) : Int) from rfl, readUp_eq_ok_iff (by simpa using hzero.2)]
  constructor
  · rintro ⟨hd, rfl, hle⟩
    exact ⟨⟨⟨hne, hd⟩, rfl⟩, hzero.1.trans (Int.natCast_nonneg _), hle⟩
  · rintro ⟨⟨hd, rfl⟩, -, hle⟩
    exact ⟨hd.2, rfl, hle⟩

/-- Digits below zero cannot pass the upper end of the range. -/
theorem readDown_zero_iff {least greatest n : Int} {ds : List Char}
    (hzero : least ≤ 0 ∧ 0 ≤ greatest) (hne : ds ≠ []) :
    readDown least 0 ds = .ok n ↔
      (IsDigits ds ∧ n = -(Nat.ofDigitChars 10 ds 0 : Int)) ∧ least ≤ n ∧ n ≤ greatest := by
  rw [show (0 : Int) = -((0 : Nat) : Int) from rfl, readDown_eq_ok_iff (by simpa using hzero.1)]
  constructor
  · rintro ⟨hd, rfl, hle⟩
    exact ⟨⟨⟨hne, hd⟩, rfl⟩, hle, (neg_nonpos.2 (Int.natCast_nonneg _)).trans hzero.2⟩
  · rintro ⟨⟨hd, rfl⟩, hle, -⟩
    exact ⟨hd.2, rfl, hle⟩

/-- **A text is read as the integer that it denotes, if that lies in the range.** -/
theorem readInt_eq_ok_iff {least greatest n : Int} {cs : List Char}
    (hzero : least ≤ 0 ∧ 0 ≤ greatest) :
    readInt least greatest cs = .ok n ↔ Denotes cs n ∧ least ≤ n ∧ n ≤ greatest := by
  unfold readInt
  split
  · simp [denotes_iff_of_unsigned, not_isDigits_nil]
  · simp [denotes_plus_iff, not_isDigits_nil]
  · simp [denotes_minus_iff, not_isDigits_nil]
  · next ds hne => rw [denotes_plus_iff, readUp_zero_iff hzero (by simpa using hne)]
  · next ds hne => rw [denotes_minus_iff, readDown_zero_iff hzero (by simpa using hne)]
  · next hne _ _ hp hm =>
    rw [denotes_iff_of_unsigned (fun ds h => hp ds h) (fun ds h => hm ds h),
      readUp_zero_iff hzero hne]

/-- An integer is read back from its text, if it lies in the range. -/
theorem readInt_intText {least greatest n : Int} (hzero : least ≤ 0 ∧ 0 ≤ greatest)
    (hn : least ≤ n ∧ n ≤ greatest) : readInt least greatest (intText n) = .ok n :=
  (readInt_eq_ok_iff hzero).2 ⟨denotes_intText n, hn⟩

/-- What is read lies in the range. -/
theorem mem_of_readInt {least greatest n : Int} {cs : List Char}
    (hzero : least ≤ 0 ∧ 0 ≤ greatest) (h : readInt least greatest cs = .ok n) :
    least ≤ n ∧ n ≤ greatest :=
  ((readInt_eq_ok_iff hzero).1 h).2

end FlatGraph.Number
