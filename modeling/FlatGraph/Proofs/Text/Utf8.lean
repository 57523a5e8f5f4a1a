import FlatGraph.Text.Utf8
import Mathlib.Data.List.Basic
import Mathlib.Tactic.IntervalCases

/-!
# Text survives its bytes

**Theorem (`decode_encode`, `lossy_encode`).** The bytes of a text read back as the text, and the
reading that never fails gives the same.

No other bytes read as the text (`decode_eq_ok_iff`).

The front of the bytes of a text is its first character (`front_encodeChar`), whatever follows.
That makes the bytes of one text a beginning of those of another exactly when the one text is a
beginning of the other (`encode_isPrefix_iff`): no character begins inside another.
-/

namespace FlatGraph.Utf8

/-! ## One character -/

theorem toNat_ofNat_of_lt {n : Nat} (h : n < 256) : (UInt8.ofNat n).toNat = n := by
  rw [UInt8.toNat_ofNat']
  exact Nat.mod_eq_of_lt h

/-- A character lies below the surrogates or above them. -/
theorem toNat_range (c : Char) : c.toNat < 0xD800 ∨ 0xE000 ≤ c.toNat ∧ c.toNat < 0x110000 := by
  rcases c.valid with h | ⟨h, h'⟩
  · exact Or.inl h
  · exact Or.inr ⟨h, h'⟩

theorem finish_zero (value taken least greatest : Nat) (rest : Bytes) :
    finish value taken 0 least greatest rest = .char (Char.ofNat value) rest := rfl

theorem finish_succ {value taken more least greatest n : Nat} {rest : Bytes} (hn : n < 256)
    (hl : least ≤ n) (hg : n ≤ greatest) :
    finish value taken (more + 1) least greatest (.ofNat n :: rest) =
      finish (value * 0x40 + n % 0x40) (taken + 1) more 0x80 0xBF rest := by
  rw [finish, toNat_ofNat_of_lt hn, if_pos ⟨hl, hg⟩]

/-- What opens a character of several bytes is read as that. -/
theorem front_of_opening {n : Nat} {o : Opening} (hn : n < 256) (h : 0x80 ≤ n)
    (ho : opening? n = some o) (rest : Bytes) :
    front (.ofNat n) rest = finish o.share 1 o.more o.least o.greatest rest := by
  rw [front, toNat_ofNat_of_lt hn, if_neg (by omega), ho]

theorem opening?_two {n : Nat} (h : 2 ≤ n) (h' : n < 32) :
    opening? (0xC0 + n) = some ⟨n, 1, 0x80, 0xBF⟩ := by
  rw [opening?, if_pos ⟨by omega, by omega⟩, Nat.add_sub_cancel_left]

theorem opening?_three {n : Nat} (h : n < 16) :
    opening? (0xE0 + n) = some ⟨n, 2, if n = 0 then 0xA0 else 0x80,
      if n = 13 then 0x9F else 0xBF⟩ := by
  interval_cases n <;> rfl

theorem opening?_four {n : Nat} (h : n < 5) :
    opening? (0xF0 + n) = some ⟨n, 3, if n = 0 then 0x90 else 0x80,
      if n = 4 then 0x8F else 0xBF⟩ := by
  interval_cases n <;> rfl

/-- **The front of the bytes of a text is its first character.** -/
theorem front_encodeChar (c : Char) (rest : Bytes) :
    ∃ b bs, encodeChar c = b :: bs ∧ front b (bs ++ rest) = .char c rest := by
  have hc : Char.ofNat c.toNat = c := Char.ofNat_toNat c
  have hr := toNat_range c
  unfold encodeChar
  generalize hn : c.toNat = n at hc hr
  dsimp only
  split_ifs with h1 h2 h3
  · refine ⟨_, [], rfl, ?_⟩
    rw [front, toNat_ofNat_of_lt (by omega), if_pos h1, hc, List.nil_append]
  · refine ⟨_, _, rfl, ?_⟩
    rw [front_of_opening (by omega) (by omega) (opening?_two (by omega) (by omega))]
    dsimp only
    rw [List.cons_append, finish_succ (by omega) (by omega) (by omega), finish_zero,
      show n / 64 * 64 + (128 + n % 64) % 64 = n by omega, hc, List.nil_append]
  · refine ⟨_, _, rfl, ?_⟩
    rw [front_of_opening (by omega) (by omega) (opening?_three (by omega))]
    dsimp only
    rw [List.cons_append, finish_succ (by omega) (by split <;> omega) (by split <;> omega),
      List.cons_append, finish_succ (by omega) (by omega) (by omega), finish_zero,
      show (n / 4096 * 64 + (128 + n / 64 % 64) % 64) * 64 + (128 + n % 64) % 64 = n by omega,
      hc, List.nil_append]
  · refine ⟨_, _, rfl, ?_⟩
    rw [front_of_opening (by omega) (by omega) (opening?_four (by omega))]
    dsimp only
    rw [List.cons_append, finish_succ (by omega) (by split <;> omega) (by split <;> omega),
      List.cons_append, finish_succ (by omega) (by omega) (by omega),
      List.cons_append, finish_succ (by omega) (by omega) (by omega), finish_zero,
      show ((n / 262144 * 64 + (128 + n / 4096 % 64) % 64) * 64 + (128 + n / 64 % 64) % 64) * 64 +
        (128 + n % 64) % 64 = n by omega, hc, List.nil_append]

/-! ## Texts -/

theorem decodeFrom_flatMap (cs : List Char) :
    ∀ index, decodeFrom index (cs.flatMap encodeChar) = .ok cs := by
  induction cs with
  | nil => intro index; simp [decodeFrom]
  | cons c cs ih =>
    intro index
    obtain ⟨b, bs, hb, hf⟩ := front_encodeChar c (cs.flatMap encodeChar)
    rw [List.flatMap_cons, hb, List.cons_append, decodeFrom]
    split
    · next d rest h =>
      obtain ⟨rfl, rfl⟩ := Front.char.inj (hf.symm.trans h)
      rw [ih]
      rfl
    · next h => rw [hf] at h; cases h
    · next h => rw [hf] at h; cases h

/-- **The bytes of a text read back as the text.** -/
@[simp] theorem decode_encode (s : String) : decode (encode s) = .ok s := by
  rw [decode, encode, decodeFrom_flatMap]
  exact congrArg Except.ok String.ofList_toList

theorem lossyChars_flatMap (cs : List Char) : lossyChars (cs.flatMap encodeChar) = cs := by
  induction cs with
  | nil => simp [lossyChars]
  | cons c cs ih =>
    obtain ⟨b, bs, hb, hf⟩ := front_encodeChar c (cs.flatMap encodeChar)
    rw [List.flatMap_cons, hb, List.cons_append, lossyChars]
    split
    · next d rest h =>
      obtain ⟨rfl, rfl⟩ := Front.char.inj (hf.symm.trans h)
      rw [ih]
    · next h => rw [hf] at h; cases h
    · next h => rw [hf] at h; cases h

/-- **The bytes of a text show as the text.** -/
@[simp] theorem lossy_encode (s : String) : lossy (encode s) = s := by
  rw [lossy, encode, lossyChars_flatMap, String.ofList_toList]

/-- Bytes show as something. -/
theorem lossy_eq_empty_iff {bs : Bytes} : lossy bs = "" ↔ bs = [] := by
  rw [lossy, ← String.toList_inj, String.toList_ofList, String.toList_empty]
  cases bs with
  | nil => simp [lossyChars]
  | cons b bs =>
    rw [lossyChars]
    split <;> simp

theorem encode_injective : Function.Injective encode := fun s t h => by
  rw [← lossy_encode s, h, lossy_encode]

theorem encode_inj {s t : String} : encode s = encode t ↔ s = t := encode_injective.eq_iff

@[simp] theorem encode_eq_nil_iff {s : String} : encode s = [] ↔ s = "" := by
  rw [← encode_empty, encode_inj]

/-! ## One form -/

theorem ofNat_eq_of_toNat {b : UInt8} {n : Nat} (h : b.toNat = n) : UInt8.ofNat n = b := by
  rw [← h, UInt8.ofNat_toNat]

theorem toNat_ofNat_char {n : Nat} (h : n < 0xD800 ∨ 0xE000 ≤ n ∧ n < 0x110000) :
    (Char.ofNat n).toNat = n := by
  have hv : n.isValidChar := h.imp_right fun h => ⟨by omega, h.2⟩
  rw [Char.ofNat, dif_pos hv]
  rfl

theorem exists_of_finish_succ {value taken more least greatest : Nat} {bs rest : Bytes} {c : Char}
    (h : finish value taken (more + 1) least greatest bs = .char c rest) :
    ∃ b bs', bs = b :: bs' ∧ least ≤ b.toNat ∧ b.toNat ≤ greatest ∧
      finish (value * 0x40 + b.toNat % 0x40) (taken + 1) more 0x80 0xBF bs' = .char c rest := by
  cases bs with
  | nil => cases h
  | cons b bs =>
    rw [finish] at h
    split_ifs at h with hb
    exact ⟨b, bs, rfl, hb.1, hb.2, h⟩

/-- What an opening says about the byte that it was found for. -/
theorem opening?_eq_some {b : Nat} {o : Opening} (h : opening? b = some o) :
    0x80 ≤ o.least ∧ o.greatest ≤ 0xBF ∧
      (o.more = 1 ∧ b = 0xC0 + o.share ∧ 2 ≤ o.share ∧ o.share < 32 ∨
        o.more = 2 ∧ b = 0xE0 + o.share ∧ o.share < 16 ∧ (o.share = 0 → o.least = 0xA0) ∧
          (o.share = 13 → o.greatest = 0x9F) ∨
        o.more = 3 ∧ b = 0xF0 + o.share ∧ o.share < 5 ∧ (o.share = 0 → o.least = 0x90) ∧
          (o.share = 4 → o.greatest = 0x8F)) := by
  unfold opening? at h
  split_ifs at h <;> obtain rfl := Option.some.inj h <;> dsimp only <;> omega

/-- **What is read as a character is the bytes of the character.** -/
theorem encodeChar_of_front {b : UInt8} {bs rest : Bytes} {c : Char}
    (h : front b bs = .char c rest) : encodeChar c ++ rest = b :: bs := by
  unfold front at h
  split_ifs at h with hb
  · cases h
    have hc := toNat_ofNat_char (n := b.toNat) (.inl (by omega))
    rw [encodeChar, hc, if_pos hb, UInt8.ofNat_toNat]
    rfl
  cases ho : opening? b.toNat with
  | none => simp [ho] at h
  | some o =>
    simp only [ho] at h
    obtain ⟨hl, hg, hkind⟩ := opening?_eq_some ho
    rcases hkind with ⟨hm, hb, hs, hs'⟩ | ⟨hm, hb, hs, hlow, hhigh⟩ | ⟨hm, hb, hs, hlow, hhigh⟩
    · rw [hm] at h
      obtain ⟨b₂, bs, rfl, hl₂, hg₂, h⟩ := exists_of_finish_succ h
      rw [finish_zero] at h
      cases h
      rw [encodeChar, toNat_ofNat_char (.inl (by omega)), if_neg (by omega), if_pos (by omega),
        ofNat_eq_of_toNat (b := b) (by omega),
        ofNat_eq_of_toNat (b := b₂) (by omega)]
      rfl
    · rw [hm] at h
      obtain ⟨b₂, bs, rfl, hl₂, hg₂, h⟩ := exists_of_finish_succ h
      obtain ⟨b₃, bs, rfl, hl₃, hg₃, h⟩ := exists_of_finish_succ h
      rw [finish_zero] at h
      cases h
      rw [encodeChar, toNat_ofNat_char (by omega), if_neg (by omega), if_neg (by omega),
        if_pos (by omega),
        ofNat_eq_of_toNat (b := b) (by omega), ofNat_eq_of_toNat (b := b₂) (by omega),
        ofNat_eq_of_toNat (b := b₃) (by omega)]
      rfl
    · rw [hm] at h
      obtain ⟨b₂, bs, rfl, hl₂, hg₂, h⟩ := exists_of_finish_succ h
      obtain ⟨b₃, bs, rfl, hl₃, hg₃, h⟩ := exists_of_finish_succ h
      obtain ⟨b₄, bs, rfl, hl₄, hg₄, h⟩ := exists_of_finish_succ h
      rw [finish_zero] at h
      cases h
      rw [encodeChar, toNat_ofNat_char (by omega), if_neg (by omega), if_neg (by omega),
        if_neg (by omega),
        ofNat_eq_of_toNat (b := b) (by omega), ofNat_eq_of_toNat (b := b₂) (by omega),
        ofNat_eq_of_toNat (b := b₃) (by omega), ofNat_eq_of_toNat (b := b₄) (by omega)]
      rfl

theorem flatMap_of_decodeFrom {bs : Bytes} {cs : List Char} {index : Nat}
    (h : decodeFrom index bs = .ok cs) : cs.flatMap encodeChar = bs := by
  induction index, bs using decodeFrom.induct generalizing cs with
  | case1 index =>
    rw [decodeFrom] at h
    cases h
    rfl
  | case2 index b bs c rest hf ih =>
    rw [decodeFrom] at h
    split at h
    · next d rest' hf' =>
      obtain ⟨rfl, rfl⟩ := Front.char.inj (hf.symm.trans hf')
      cases hd : decodeFrom (index + (bs.length + 1 - rest.length)) rest with
      | error e => rw [hd] at h; cases h
      | ok cs' =>
        rw [hd] at h
        cases h
        rw [List.flatMap_cons, ih hd, encodeChar_of_front hf]
    · cases h
    · cases h
  | case3 index b bs width hf =>
    rw [decodeFrom] at h
    split at h
    · next hf' => rw [hf] at hf'; cases hf'
    · cases h
    · cases h
  | case4 index b bs hf =>
    rw [decodeFrom] at h
    split at h
    · next hf' => rw [hf] at hf'; cases hf'
    · cases h
    · cases h

/-- **Only the bytes of a text read as the text.** -/
theorem decode_eq_ok_iff {bs : Bytes} {s : String} : decode bs = .ok s ↔ encode s = bs := by
  constructor
  · intro h
    unfold decode at h
    cases hd : decodeFrom 0 bs with
    | error e => rw [hd] at h; cases h
    | ok cs =>
      rw [hd] at h
      cases h
      rw [encode, String.toList_ofList, flatMap_of_decodeFrom hd]
  · rintro rfl
    exact decode_encode s

/-! ## Beginnings -/

theorem flatMap_isPrefix {cs ds : List Char}
    (h : cs.flatMap encodeChar <+: ds.flatMap encodeChar) : cs <+: ds := by
  induction cs generalizing ds with
  | nil => exact List.nil_prefix
  | cons c cs ih =>
    obtain ⟨t, ht⟩ := h
    obtain ⟨b, bs, hb, hf⟩ := front_encodeChar c (cs.flatMap encodeChar ++ t)
    rw [List.flatMap_cons, List.append_assoc, hb, List.cons_append] at ht
    cases ds with
    | nil => cases ht
    | cons d ds =>
      obtain ⟨a, as, ha, hf'⟩ := front_encodeChar d (ds.flatMap encodeChar)
      rw [List.flatMap_cons, ha, List.cons_append] at ht
      obtain ⟨rfl, ht'⟩ := List.cons.inj ht
      rw [← ht', hf] at hf'
      obtain ⟨rfl, hrest⟩ := Front.char.inj hf'
      exact (List.prefix_append_right_inj [c]).2 (ih ⟨t, hrest⟩)

/-- **The bytes of one text begin those of another exactly if the texts do.** -/
theorem encode_isPrefix_iff {s t : String} :
    encode s <+: encode t ↔ s.toList <+: t.toList := by
  refine ⟨flatMap_isPrefix, fun ⟨u, hu⟩ => ⟨u.flatMap encodeChar, ?_⟩⟩
  rw [encode, encode, ← hu, List.flatMap_append]

end FlatGraph.Utf8
