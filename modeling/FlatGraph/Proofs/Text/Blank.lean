import FlatGraph.Text.Blank
import Mathlib.Data.List.DropRight

/-!
# Trimmed texts

Trimming takes characters away and adds none. A text without white space is trimmed to itself, and
so is a trimmed text. The texts that are trimmed to it are those that have it between white space
(`toList_trim_eq_iff`).
-/

namespace FlatGraph.Text

theorem trimEnd_eq (cs : List Char) : trimEnd cs = cs.rdropWhile isBlank := rfl

theorem toList_trim (s : String) :
    (trim s).toList = (s.toList.dropWhile isBlank).rdropWhile isBlank := by
  rw [trim, trimEnd_eq, String.toList_ofList]
  rfl

theorem mem_of_mem_trim {s : String} {c : Char} (h : c ∈ (trim s).toList) : c ∈ s.toList := by
  rw [toList_trim] at h
  exact (List.dropWhile_suffix _).subset ((List.rdropWhile_prefix _ _).subset h)

theorem dropWhile_eq_self {cs : List Char} (h : ∀ c ∈ cs, isBlank c = false) :
    cs.dropWhile isBlank = cs := by
  rw [List.dropWhile_eq_self_iff]
  intro hlen
  simp [h _ (List.getElem_mem hlen)]

theorem trim_eq_self {s : String} (h : ∀ c ∈ s.toList, isBlank c = false) : trim s = s := by
  apply String.toList_injective
  rw [toList_trim, dropWhile_eq_self h, List.rdropWhile, dropWhile_eq_self (by simpa using h),
    List.reverse_reverse]

/-- **A text is trimmed to one without white space exactly if it has it between white space.** -/
theorem toList_trim_eq_iff {s : String} {cs : List Char} (h : ∀ c ∈ cs, isBlank c = false) :
    (trim s).toList = cs ↔ ∃ before after, (∀ c ∈ before ++ after, isBlank c = true) ∧
      s.toList = before ++ cs ++ after := by
  rw [toList_trim]
  constructor
  · intro hs
    refine ⟨s.toList.takeWhile isBlank, (s.toList.dropWhile isBlank).rtakeWhile isBlank, ?_, ?_⟩
    · intro c hc
      rcases List.mem_append.1 hc with hc | hc
      · exact List.mem_takeWhile_imp hc
      · exact List.mem_rtakeWhile_imp hc
    · rw [← hs, List.append_assoc, List.rdropWhile_append_rtakeWhile,
        List.takeWhile_append_dropWhile]
  · rintro ⟨before, after, hblank, hs⟩
    simp only [List.mem_append, or_imp, forall_and] at hblank
    have hend : (cs ++ after).rdropWhile isBlank = cs := by
      rw [List.rdropWhile, List.reverse_append,
        List.dropWhile_append_of_pos (by simpa using hblank.2),
        dropWhile_eq_self (by simpa using h), List.reverse_reverse]
    rw [hs, List.append_assoc, List.dropWhile_append_of_pos hblank.1]
    cases cs with
    | nil => rw [List.nil_append, List.dropWhile_eq_nil_iff.2 hblank.2, List.rdropWhile_nil]
    | cons c cs =>
      rw [List.cons_append, List.dropWhile_cons_of_neg (by simp [h c]), ← List.cons_append, hend]

/-- What is left starts and ends with no white space. -/
theorem trim_trim (s : String) : trim (trim s) = trim s := by
  apply String.toList_injective
  rw [toList_trim (trim s), toList_trim s]
  have hstart : ((s.toList.dropWhile isBlank).rdropWhile isBlank).dropWhile isBlank =
      (s.toList.dropWhile isBlank).rdropWhile isBlank := by
    rw [List.dropWhile_eq_self_iff]
    intro hlen
    have hinit := List.rdropWhile_prefix isBlank (s.toList.dropWhile isBlank)
    rw [hinit.getElem hlen]
    exact List.dropWhile_get_zero_not _ _ (hlen.trans_le hinit.length_le)
  rw [hstart, List.rdropWhile_idempotent]

end FlatGraph.Text
