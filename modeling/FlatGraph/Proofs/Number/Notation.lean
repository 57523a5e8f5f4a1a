import FlatGraph.Number.Notation
import FlatGraph.Proofs.Number.Shortest
import Mathlib.Algebra.Order.Field.Basic

/-!
# Floating-point numbers and their text

A literal is read as the value nearest to the number that it says (`readLiteral_positional`,
`ofDecimal_eq`), also where its size alone settles the matter. So what is read from the text of a
value, in any format, is the value nearest to the number that the text says (`read_text`), and in
the format of the value itself it is the value (`read_text_self`).
-/

namespace FlatGraph.Number

/-! ## Literals -/

/-- The number that a literal says. -/
def Literal.value (l : Literal) : ℚ :=
  (Nat.ofDigitChars 10 (l.whole ++ l.fraction) 0 : ℚ) * 10 ^ (l.exponent - l.fraction.length)

theorem readLiteral_of_isDigits {whole : List Char} (h : IsDigits whole) :
    readLiteral whole = some ⟨whole, [], 0⟩ := by
  have htake : whole.takeWhile Char.isDigit = whole := List.takeWhile_eq_self_iff.2 h.2
  have hdrop : whole.dropWhile Char.isDigit = [] := List.dropWhile_eq_nil_iff.2 h.2
  have hne : whole.isEmpty = false := by simpa using h.1
  simp [readLiteral, htake, hdrop, hne]

theorem readLiteral_point {whole fraction : List Char} (hw : IsDigits whole)
    (hf : ∀ c ∈ fraction, c.isDigit = true) :
    readLiteral (whole ++ '.' :: fraction) = some ⟨whole, fraction, 0⟩ := by
  have htake : (whole ++ '.' :: fraction).takeWhile Char.isDigit = whole := by
    rw [List.takeWhile_append_of_pos hw.2, List.takeWhile_cons_of_neg (by decide), List.append_nil]
  have hdrop : (whole ++ '.' :: fraction).dropWhile Char.isDigit = '.' :: fraction := by
    rw [List.dropWhile_append_of_pos hw.2, List.dropWhile_cons_of_neg (by decide)]
  have hne : whole.isEmpty = false := by simpa using hw.1
  have hfraction : fraction.takeWhile Char.isDigit = fraction := List.takeWhile_eq_self_iff.2 hf
  have hnone : fraction.dropWhile Char.isDigit = [] := List.dropWhile_eq_nil_iff.2 hf
  simp [readLiteral, htake, hdrop, hfraction, hnone, hne]

theorem isDigit_of_mem_zeros {k : Nat} {c : Char} (h : c ∈ List.replicate k '0') :
    c.isDigit = true := by
  rw [List.eq_of_mem_replicate h]
  rfl

section Positional

variable {d : Decimal}

/-- A decimal below one, behind the point. -/
theorem readLiteral_fraction (h : IsDigits d.digits) (hp : d.point ≤ 0) :
    ∃ l, readLiteral ('0' :: '.' :: (List.replicate (-d.point).toNat '0' ++ d.digits)) = some l ∧
      l.value = d.value := by
  have hdigits : ∀ c ∈ List.replicate (-d.point).toNat '0' ++ d.digits, c.isDigit = true := by
    intro c hc
    rcases List.mem_append.1 hc with hc | hc
    · exact isDigit_of_mem_zeros hc
    · exact h.2 c hc
  have hzero : IsDigits ['0'] := ⟨by simp, fun c hc => by rw [List.mem_singleton.1 hc]; rfl⟩
  refine ⟨_, readLiteral_point hzero hdigits, ?_⟩
  have hnum : Nat.ofDigitChars 10 ('0' :: (List.replicate (-d.point).toNat '0' ++ d.digits)) 0 =
      Nat.ofDigitChars 10 d.digits 0 := by
    rw [ofDigitChars_cons, Nat.ofDigitChars_append, Nat.ofDigitChars_replicate_zero]
    rfl
  have hexp : (0 : Int) - (List.replicate (-d.point).toNat '0' ++ d.digits).length =
      d.point - d.digits.length := by
    rw [List.length_append, List.length_replicate]
    push_cast
    omega
  simp only [Literal.value, Decimal.value, List.singleton_append, hnum, hexp]

/-- A whole number, filled up to the point. -/
theorem readLiteral_whole (h : IsDigits d.digits) (hp : (d.digits.length : Int) ≤ d.point) :
    ∃ l, readLiteral (d.digits ++ List.replicate (d.point - d.digits.length).toNat '0') = some l ∧
      l.value = d.value := by
  have hdigits : IsDigits (d.digits ++ List.replicate (d.point - d.digits.length).toNat '0') := by
    refine ⟨by simp [h.1], fun c hc => ?_⟩
    rcases List.mem_append.1 hc with hc | hc
    · exact h.2 c hc
    · exact isDigit_of_mem_zeros hc
  refine ⟨_, readLiteral_of_isDigits hdigits, ?_⟩
  have hexp : ((d.point - d.digits.length).toNat : Int) = d.point - d.digits.length := by omega
  rw [Literal.value, Decimal.value, List.append_nil, Nat.ofDigitChars_append,
    Nat.ofDigitChars_replicate_zero, ← hexp]
  push_cast
  rw [zpow_natCast]
  simp [mul_comm]

/-- A decimal with the point among its digits. -/
theorem readLiteral_split (h : IsDigits d.digits) (hp : 0 < d.point)
    (hlt : d.point < d.digits.length) :
    ∃ l, readLiteral (d.digits.take d.point.toNat ++ '.' :: d.digits.drop d.point.toNat) = some l ∧
      l.value = d.value := by
  have htake : IsDigits (d.digits.take d.point.toNat) := by
    refine ⟨fun hnil => ?_, fun c hc => h.2 c (List.mem_of_mem_take hc)⟩
    have hlen := congrArg List.length hnil
    rw [List.length_take, List.length_nil] at hlen
    omega
  refine ⟨_, readLiteral_point htake fun c hc => h.2 c (List.mem_of_mem_drop hc), ?_⟩
  have hexp : (0 : Int) - (d.digits.length - d.point.toNat : Nat) = d.point - d.digits.length := by
    omega
  rw [Literal.value, Decimal.value, List.take_append_drop, List.length_drop]
  dsimp only
  rw [hexp]

end Positional

/-- **A decimal is read from its positional text as the number that it stands for.** -/
theorem readLiteral_positional {d : Decimal} (h : IsDigits d.digits) :
    ∃ l, readLiteral d.positional = some l ∧ l.value = d.value := by
  unfold Decimal.positional
  split_ifs with hlow hhigh
  · exact readLiteral_fraction h hlow
  · exact readLiteral_whole h hhigh
  · exact readLiteral_split h (Int.not_le.1 hlow) (Int.not_le.1 hhigh)

/-! ## Decimals out of range -/

/-- The powers of ten beyond the places of the format are rounded to zero and to infinity. -/
structure Format.Wide (f : Format) : Prop where
  low : f.round 1 (10 ^ f.places) = 0
  high : f.round (10 ^ f.places) 1 = f.infinity

namespace Format.Wide

variable {f : Format} {q : ℚ}

theorem magnitude_eq_zero (hf : f.Wide) (hq : 0 ≤ q) (h : q ≤ 10 ^ (-(f.places : Int))) :
    f.magnitude q = 0 := by
  have hpower : (10 : ℚ) ^ (-(f.places : Int)) = (1 : Nat) / (10 ^ f.places : Nat) := by
    rw [zpow_neg, zpow_natCast, Nat.cast_one, one_div, Nat.cast_pow, Nat.cast_ofNat]
  have hle := magnitude_le_magnitude (f := f) hq h
  rw [hpower, magnitude_div (by positivity), hf.low] at hle
  exact Nat.le_zero.1 hle

theorem magnitude_eq_infinity (hf : f.Wide) (h : 10 ^ (f.places : Int) ≤ q) :
    f.magnitude q = f.infinity := by
  have hpower : (10 : ℚ) ^ (f.places : Int) = (10 ^ f.places : Nat) / (1 : Nat) := by
    rw [zpow_natCast, Nat.cast_one, div_one, Nat.cast_pow, Nat.cast_ofNat]
  have hle := magnitude_le_magnitude (f := f) (by positivity) h
  rw [hpower, magnitude_div Nat.one_pos, hf.high] at hle
  exact le_antisymm (f.magnitude_le_infinity q) hle

end Format.Wide

theorem wide_binary32 : binary32.Wide := ⟨by decide +kernel, by decide +kernel⟩

theorem wide_binary64 : binary64.Wide := ⟨by decide +kernel, by decide +kernel⟩

/-- The number of digits is the size of a number. -/
theorem size_natText {c : Nat} (h : 0 < c) :
    10 ^ ((natText c).length - 1) ≤ c ∧ c < 10 ^ (natText c).length := by
  have hlen : 0 < (natText c).length := List.length_pos_iff.2 (isDigits_natText c).1
  refine ⟨?_, (Nat.length_toDigits_le_iff (by decide) hlen).1 le_rfl⟩
  by_contra hlt
  rw [Nat.not_le] at hlt
  rcases Nat.eq_zero_or_pos ((natText c).length - 1) with hz | hpos
  · rw [hz, pow_zero] at hlt
    omega
  · have hle := (Nat.length_toDigits_le_iff (by decide) hpos).2 hlt
    unfold natText at hle hlen
    omega

namespace Floating

variable {f g : Format}

/-- The value nearest to a number with the given sign. -/
def ofValue (negative : Bool) (q : ℚ) : Floating f :=
  .signed negative ⟨f.magnitude q, Nat.lt_succ_of_le (f.magnitude_le_infinity q)⟩

theorem ofRatio_eq (negative : Bool) {num den : Nat} (h : 0 < den) :
    ofRatio (f := f) negative num den = ofValue negative (num / den) := by
  simp only [ofRatio, ofValue, Format.magnitude_div h]

theorem ofValue_of_magnitude {negative : Bool} {q : ℚ} {m : Fin (f.infinity + 1)}
    (h : f.magnitude q = m) : ofValue negative q = .signed negative m := by
  simp only [ofValue, h]

/-- **The size of a decimal alone does not change what it is read as.** -/
theorem ofDecimal_eq (hf : f.Wide) (negative : Bool) (c : Nat) (e : Int) :
    ofDecimal f negative c e = ofValue negative (c * 10 ^ e) := by
  rcases Nat.eq_zero_or_pos c with rfl | hc
  · simp [ofDecimal, ofValue, Format.magnitude_zero, zero]
  obtain ⟨hlow, hhigh⟩ := size_natText hc
  have hlen : 0 < (natText c).length := List.length_pos_iff.2 (isDigits_natText c).1
  have hlow : (10 : ℚ) ^ ((natText c).length + e - 1) ≤ c * 10 ^ e := by
    rw [show (natText c).length + e - 1 = (((natText c).length - 1 : Nat) : Int) + e by omega,
      zpow_add₀ (by norm_num), zpow_natCast]
    gcongr
    exact_mod_cast hlow
  have hhigh : (c : ℚ) * 10 ^ e ≤ 10 ^ ((natText c).length + e) := by
    rw [zpow_add₀ (by norm_num), zpow_natCast]
    gcongr
    exact_mod_cast hhigh.le
  unfold ofDecimal
  dsimp only
  split_ifs with hsmall hlarge
  · refine (ofValue_of_magnitude (hf.magnitude_eq_zero (by positivity) (hhigh.trans ?_))).symm
    exact zpow_le_zpow_right₀ (by norm_num) (hsmall.resolve_left hc.ne').le
  · refine (ofValue_of_magnitude (hf.magnitude_eq_infinity (le_trans ?_ hlow))).symm
    exact zpow_le_zpow_right₀ (by norm_num) (by omega)
  · rw [ofRatio_eq negative (by positivity), Format.zpow_eq_div e]
    push_cast
    rw [mul_div_assoc]

end Floating

/-! ## Texts -/

namespace Decimal

theorem mem_positional {d : Decimal} {c : Char} (hd : IsDigits d.digits) (h : c ∈ d.positional) :
    c.isDigit = true ∨ c = '.' := by
  unfold positional at h
  split_ifs at h
  · simp only [List.mem_append, List.mem_cons, List.not_mem_nil, or_false] at h
    rcases h with ((rfl | rfl) | h) | h
    · exact Or.inl rfl
    · exact Or.inr rfl
    · exact Or.inl (isDigit_of_mem_zeros h)
    · exact Or.inl (hd.2 c h)
  · rcases List.mem_append.1 h with h | h
    · exact Or.inl (hd.2 c h)
    · exact Or.inl (isDigit_of_mem_zeros h)
  · simp only [List.mem_append, List.mem_cons] at h
    rcases h with h | rfl | h
    · exact Or.inl (hd.2 c (List.mem_of_mem_take h))
    · exact Or.inr rfl
    · exact Or.inl (hd.2 c (List.mem_of_mem_drop h))

end Decimal

namespace Format

variable {f g : Format} {n : Nat}

/-- The text of a magnitude. -/
def textOf (f : Format) (n : Nat) : List Char :=
  if n = f.infinity then ['i', 'n', 'f'] else if n = 0 then ['0'] else (f.shortest .up n).positional

/-- The number that the text of a finite magnitude says. -/
def written (f : Format) (n : Nat) : ℚ := if n = 0 then 0 else (f.shortest .up n).value

theorem written_nonneg (f : Format) (n : Nat) : 0 ≤ f.written n := by
  unfold written
  split
  · exact le_rfl
  · exact Decimal.value_nonneg _

/-- The text of a finite magnitude says a number that is rounded to it. -/
theorem magnitude_written (h : n < f.infinity) : f.magnitude (f.written n) = n := by
  unfold written
  split
  · next hz => rw [magnitude_zero, hz]
  · exact magnitude_shortest .up h

/-- The magnitude of the second format that is nearest to what the text of a magnitude of the first
one says. -/
def reread (f g : Format) (n : Nat) : Nat :=
  if n = f.infinity then g.infinity else g.magnitude (f.written n)

theorem reread_infinity (f g : Format) : f.reread g f.infinity = g.infinity := if_pos rfl

theorem reread_of_lt (h : n < f.infinity) : f.reread g n = g.magnitude (f.written n) :=
  if_neg h.ne

theorem reread_le_infinity (f g : Format) (n : Nat) : f.reread g n ≤ g.infinity := by
  unfold reread
  split
  · exact le_rfl
  · exact g.magnitude_le_infinity _

theorem mem_textOf {c : Char} (hn : n ≤ f.infinity) (h : c ∈ f.textOf n) :
    c.isDigit = true ∨ c = '.' ∨ c ∈ ['i', 'n', 'f'] := by
  unfold textOf at h
  split_ifs at h with hinf hzero
  · exact Or.inr (Or.inr h)
  · rw [List.mem_singleton.1 h]
    exact Or.inl rfl
  · exact (Decimal.mem_positional (isDigits_shortest .up (Nat.pos_of_ne_zero hzero)
      (lt_of_le_of_ne hn hinf)) h).imp_right Or.inl

end Format

namespace Floating

variable {f g : Format}

/-- The value of another format that is nearest to what the text of a value says. -/
def reread (g : Format) : Floating f → Floating g
  | .nan => .nan
  | .signed negative m =>
    .signed negative ⟨f.reread g m, Nat.lt_succ_of_le (f.reread_le_infinity g m)⟩

theorem readUnsigned_textOf (hg : g.Wide) (negative : Bool) {n : Nat} (hn : n ≤ f.infinity) :
    readUnsigned g negative (f.textOf n) =
      .ok (.signed negative ⟨f.reread g n, Nat.lt_succ_of_le (f.reread_le_infinity g n)⟩) := by
  rcases hn.eq_or_lt with rfl | hlt
  · simp only [Format.reread_infinity]
    rw [Format.textOf, if_pos rfl]
    rfl
  simp only [Format.reread_of_lt hlt]
  rcases Nat.eq_zero_or_pos n with rfl | hpos
  · rw [Format.textOf, if_neg hlt.ne, if_pos rfl]
    simp only [Format.written, if_pos, Format.magnitude_zero]
    rfl
  · obtain ⟨l, hl, hvalue⟩ := readLiteral_positional (Format.isDigits_shortest .up hpos hlt)
    have hwritten : f.written n = l.value := (if_neg hpos.ne').trans hvalue.symm
    rw [Format.textOf, if_neg hlt.ne, if_neg hpos.ne', readUnsigned, hl]
    simp only [hwritten]
    exact congrArg Except.ok (ofDecimal_eq hg _ _ _)

theorem read_of_unsigned {c : Char} {cs : List Char} (hp : c ≠ '+') (hm : c ≠ '-') :
    read g (c :: cs) = readUnsigned g false (c :: cs) := by
  unfold read
  split
  · contradiction
  · next h => exact absurd (List.cons.inj h).1 hp
  · next h => exact absurd (List.cons.inj h).1 hm
  · rfl

/-- **What is read from the text of a value is the value nearest to what the text says.** -/
theorem read_text (hg : g.Wide) (x : Floating f) : read g x.text = .ok (x.reread g) := by
  cases x with
  | nan => rfl
  | signed negative m =>
    have hm : m.val ≤ f.infinity := Nat.le_of_lt_succ m.isLt
    have hread := readUnsigned_textOf hg negative hm
    rw [show (signed negative m).text = (if negative then ['-'] else []) ++ f.textOf m from rfl]
    cases negative with
    | true => exact hread
    | false =>
      rw [if_neg Bool.false_ne_true, List.nil_append]
      have hchars := fun c => Format.mem_textOf (c := c) hm
      cases htext : f.textOf m with
      | nil =>
        rw [htext] at hread
        cases hread
      | cons c cs =>
        rw [htext] at hread hchars
        have hc := hchars c List.mem_cons_self
        rw [read_of_unsigned, hread]
        · rfl
        · rintro rfl
          simp at hc
        · rintro rfl
          simp at hc

theorem reread_self (x : Floating f) : x.reread f = x := by
  cases x with
  | nan => rfl
  | signed negative m =>
    have hm : f.reread f m = m := by
      rcases (Nat.le_of_lt_succ m.isLt).eq_or_lt with heq | hlt
      · rw [heq, Format.reread_infinity]
      · rw [Format.reread_of_lt hlt, Format.magnitude_written hlt]
    simp only [reread, hm]

/-- **A value is read back from its text.** -/
theorem read_text_self (hf : f.Wide) (x : Floating f) : read f x.text = .ok x := by
  rw [read_text hf, reread_self]

/-- The text of an integer is that of a number. -/
theorem exists_read_intText (f : Format) (n : Int) : ∃ x, read f (intText n) = .ok x := by
  have hdigits := isDigits_natText n.natAbs
  have hunsigned : ∀ negative, ∃ x, readUnsigned f negative (natText n.natAbs) = .ok x :=
    fun negative => by
      rw [readUnsigned, readLiteral_of_isDigits hdigits]
      exact ⟨_, rfl⟩
  unfold intText
  split
  · exact hunsigned true
  · match hcs : natText n.natAbs, hdigits.1 with
    | c :: cs, _ =>
      rw [hcs] at hunsigned hdigits
      have hc := hdigits.2 c List.mem_cons_self
      rw [read_of_unsigned]
      · exact hunsigned false
      · rintro rfl
        cases hc
      · rintro rfl
        cases hc

theorem mem_text {x : Floating f} {c : Char} (h : c ∈ x.text) :
    c.isDigit = true ∨ c ∈ ['-', '.', 'i', 'n', 'f', 'N', 'a'] := by
  cases x with
  | nan => exact Or.inr ((by simp : ['N', 'a', 'N'] ⊆ ['-', '.', 'i', 'n', 'f', 'N', 'a']) h)
  | signed negative m =>
    rcases List.mem_append.1 h with h | h
    · cases negative with
      | true =>
        rw [List.mem_singleton.1 h]
        exact Or.inr (by decide)
      | false => cases h
    · rcases Format.mem_textOf (Nat.le_of_lt_succ m.isLt) h with h | rfl | h
      · exact Or.inl h
      · exact Or.inr (by decide)
      · exact Or.inr ((by simp : ['i', 'n', 'f'] ⊆ ['-', '.', 'i', 'n', 'f', 'N', 'a']) h)

end Floating

end FlatGraph.Number
