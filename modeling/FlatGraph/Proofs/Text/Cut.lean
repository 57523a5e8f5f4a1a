import FlatGraph.Text.Cut
import Mathlib.Data.List.Basic
import Mathlib.Data.List.TakeWhile

/-!
# Beginnings and cuts

Cutting a text is described by what the pieces make when they are joined again: `after?` by the
beginning and the rest, `cut?` by the two pieces around the first separator, `beforeLast?` by the
text before the last character.
-/

namespace FlatGraph.Text

theorem ofList_eq_iff {cs : List Char} {s : String} : String.ofList cs = s ↔ cs = s.toList := by
  rw [← String.toList_inj, String.toList_ofList]

/-! ## Beginnings -/

theorem beginsWith_iff_isPrefix {start s : String} :
    beginsWith start s = true ↔ start.toList <+: s.toList := by
  rw [beginsWith, List.isPrefixOf_iff_prefix]

/-- A text begins with another if that and some rest make it. -/
theorem beginsWith_iff {start s : String} :
    beginsWith start s = true ↔ ∃ t, s = start ++ t := by
  rw [beginsWith_iff_isPrefix]
  constructor
  · rintro ⟨t, ht⟩
    exact ⟨.ofList t, by rw [← String.toList_inj]; simp [ht]⟩
  · rintro ⟨t, rfl⟩
    simp

@[simp] theorem beginsWith_append (start t : String) : beginsWith start (start ++ t) = true :=
  beginsWith_iff.2 ⟨t, rfl⟩

theorem beginsWith_trans {a b c : String} (h : beginsWith a b = true)
    (h' : beginsWith b c = true) : beginsWith a c = true := by
  rw [beginsWith_iff_isPrefix] at *
  exact h.trans h'

theorem after?_eq_some_iff {start s t : String} : after? start s = some t ↔ s = start ++ t := by
  rw [after?, Option.map_eq_some_iff]
  constructor
  · rintro ⟨rest, hrest, rfl⟩
    rw [dropStart?_eq_some] at hrest
    rw [← String.toList_inj]
    simp [hrest]
  · rintro rfl
    exact ⟨t.toList, dropStart?_eq_some.2 (by simp), String.ofList_toList⟩

/-! ## Separators -/

theorem takeWhile_append_cons {c : Char} {as bs : List Char} (h : c ∉ as) :
    (as ++ c :: bs).takeWhile (· != c) = as := by
  rw [List.takeWhile_append_of_pos]
  · simp
  · intro a ha
    exact bne_iff_ne.2 fun hc => h (hc ▸ ha)

theorem dropWhile_append_cons {c : Char} {as bs : List Char} (h : c ∉ as) :
    (as ++ c :: bs).dropWhile (· != c) = c :: bs := by
  rw [List.dropWhile_append_of_pos]
  · simp
  · intro a ha
    exact bne_iff_ne.2 fun hc => h (hc ▸ ha)

/-- What stands before the first separator in two equal lists is the same. -/
theorem eq_of_append_cons_eq {c : Char} {as bs cs ds : List Char} (has : c ∉ as) (hcs : c ∉ cs)
    (h : as ++ c :: bs = cs ++ c :: ds) : as = cs := by
  have hcut := congrArg (List.takeWhile (· != c)) h
  rwa [takeWhile_append_cons has, takeWhile_append_cons hcs] at hcut

/-- A list with a separator is what stands before the first one, and the rest. -/
theorem eq_append_cons_of_dropWhile {c d : Char} {cs rest : List Char}
    (h : cs.dropWhile (· != c) = d :: rest) :
    cs = cs.takeWhile (· != c) ++ c :: rest ∧ c ∉ cs.takeWhile (· != c) := by
  have hd : d = c := by
    have := List.head?_dropWhile_not (· != c) cs
    simpa [h] using this
  subst hd
  refine ⟨?_, fun hm => by simpa using List.mem_takeWhile_imp hm⟩
  rw [← h, List.takeWhile_append_dropWhile]

/-- A text is cut at the first separator. -/
theorem cut?_eq_some_iff {c : Char} {s a b : String} :
    cut? c s = some (a, b) ↔ s.toList = a.toList ++ c :: b.toList ∧ c ∉ a.toList := by
  rw [cut?]
  constructor
  · intro h
    split at h
    · cases h
    · next d rest hd =>
      obtain ⟨rfl, rfl⟩ := Prod.mk.inj (Option.some.inj h)
      rw [String.toList_ofList, String.toList_ofList]
      exact eq_append_cons_of_dropWhile hd
  · rintro ⟨h, ha⟩
    rw [h, dropWhile_append_cons ha, takeWhile_append_cons ha]
    simp only [String.ofList_toList]

theorem beforeLast?_eq_some_iff {c : Char} {s t : String} :
    beforeLast? c s = some t ↔ s.toList = t.toList ++ [c] := by
  rw [beforeLast?]
  constructor
  · intro h
    split at h
    · next hl =>
      rw [Option.some.injEq, ofList_eq_iff] at h
      rw [← h]
      exact (List.dropLast_append_getLast? c hl).symm
    · cases h
  · intro h
    rw [h, if_pos (by simp), List.dropLast_concat, String.ofList_toList]

end FlatGraph.Text
