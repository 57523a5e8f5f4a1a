import FlatGraph.Proofs.Text.Utf8
import Mathlib.Data.String.Basic
import Mathlib.Order.Monotone.Basic

/-!
# The order of texts

**Theorem (`encode_lt_iff`).** Texts have the same order as their bytes.

Two characters differ in some byte, the first such byte decides, and the character with the greater
number has the greater one there (`encodeChar_append_lt`). If they have different numbers of bytes,
it is the first byte.
-/

namespace FlatGraph.Utf8

theorem ofNat_lt_ofNat_iff {m n : Nat} (hm : m < 256) (hn : n < 256) :
    UInt8.ofNat m < UInt8.ofNat n ↔ m < n := by
  rw [UInt8.lt_iff_toNat_lt, toNat_ofNat_of_lt hm, toNat_ofNat_of_lt hn]

theorem ofNat_inj {m n : Nat} (hm : m < 256) (hn : n < 256) :
    UInt8.ofNat m = UInt8.ofNat n ↔ m = n := by
  refine ⟨fun h => ?_, fun h => h ▸ rfl⟩
  rw [← toNat_ofNat_of_lt hm, h, toNat_ofNat_of_lt hn]

theorem ofNat_cons_lt_iff {m n : Nat} (hm : m < 256) (hn : n < 256) {xs ys : Bytes} :
    UInt8.ofNat m :: xs < UInt8.ofNat n :: ys ↔ m < n ∨ m = n ∧ xs < ys := by
  rw [List.cons_lt_cons_iff, ofNat_lt_ofNat_iff hm hn, ofNat_inj hm hn]

/-- Of two characters, the one that comes first has the bytes that come first, whatever follows. -/
theorem encodeChar_append_lt {c d : Char} (h : c.toNat < d.toNat) (xs ys : Bytes) :
    encodeChar c ++ xs < encodeChar d ++ ys := by
  have hc := toNat_range c
  have hd := toNat_range d
  unfold encodeChar
  generalize c.toNat = m at *
  generalize d.toNat = n at *
  -- where the numbers first differ, digit by digit, the smaller one has the smaller digit
  have hlast : m / 64 < n / 64 ∨ m / 64 = n / 64 ∧ m % 64 < n % 64 := by omega
  have hthird : m / 64 < n / 64 →
      m / 4096 < n / 4096 ∨ m / 4096 = n / 4096 ∧ m / 64 % 64 < n / 64 % 64 := by omega
  have hsecond : m / 4096 < n / 4096 →
      m / 262144 < n / 262144 ∨ m / 262144 = n / 262144 ∧ m / 4096 % 64 < n / 4096 % 64 := by
    omega
  dsimp only
  split_ifs <;>
    simp (disch := omega) only [List.cons_append, List.nil_append, ofNat_cons_lt_iff,
      Nat.add_lt_add_iff_left, Nat.add_left_cancel_iff] <;>
    clear hc hd <;> grind

theorem flatMap_lt {cs ds : List Char} (h : cs < ds) :
    cs.flatMap encodeChar < ds.flatMap encodeChar := by
  induction cs generalizing ds with
  | nil =>
    cases ds with
    | nil => exact absurd h (lt_irrefl _)
    | cons d ds =>
      obtain ⟨b, bs, hb, -⟩ := front_encodeChar d []
      rw [List.flatMap_nil, List.flatMap_cons, hb]
      exact List.nil_lt_cons b _
  | cons c cs ih =>
    cases ds with
    | nil => exact absurd h (List.not_lt_nil _)
    | cons d ds =>
      rw [List.flatMap_cons, List.flatMap_cons]
      obtain hcd | ⟨rfl, hrest⟩ := List.cons_lt_cons_iff.1 h
      · exact encodeChar_append_lt (UInt32.lt_iff_toNat_lt.1 hcd) _ _
      · exact List.append_left_lt (ih hrest)

/-- **Texts have the order of their bytes.** -/
theorem encode_lt_iff {s t : String} : encode s < encode t ↔ s < t := by
  have hmono : ∀ {s t : String}, s < t → encode s < encode t := fun h =>
    flatMap_lt (String.lt_iff_toList_lt.1 h)
  refine ⟨fun h => ?_, hmono⟩
  rcases lt_trichotomy s t with hlt | rfl | hgt
  · exact hlt
  · exact absurd h (List.lt_irrefl _)
  · exact absurd h (List.lt_asymm (hmono hgt))

end FlatGraph.Utf8
