import FlatGraph.Index
import FlatGraph.Proofs.Lists

/-!
# How index definitions grow

Definitions are added one at a time, behind those that there are, and none that there is
(`Indexes.Grows`). So what there was is a beginning of what there is later, and no two definitions
are the same (`Indexes.Grows.isPrefix_nodup`). Of a list of definitions, each is kept where it comes
first (`Indexes.toList_ofList`).
-/

namespace FlatGraph

namespace Indexes

variable {ix ix' ix'' : Indexes} {d e : IndexDefinition}

/-! ## One definition -/

theorem contains_add_iff :
    (ix.add d).contains e = true ↔ ix.contains e = true ∨ e = d := by
  unfold add define
  split
  · next h =>
    refine (or_iff_left_of_imp ?_).symm
    rintro rfl
    exact h
  · simp [contains]

theorem toList_add (ix : Indexes) (d : IndexDefinition) :
    (ix.add d).toList = if d ∈ ix.toList then ix.toList else ix.toList ++ [d] := by
  unfold add define contains
  simp only [List.contains_iff_mem]
  split <;> rfl

/-- One definition more: those from before stay in front, and none is there twice. -/
theorem isPrefix_nodup_add (ix : Indexes) (d : IndexDefinition) :
    ix.toList <+: (ix.add d).toList ∧ (ix.toList.Nodup → (ix.add d).toList.Nodup) := by
  rw [toList_add]
  split
  · exact ⟨List.prefix_rfl, id⟩
  · next hd =>
    refine ⟨List.prefix_append _ _, fun h => ?_⟩
    rw [← List.concat_eq_append]
    exact h.concat hd

/-- **A definition is said to be new exactly if it is added.** -/
theorem define_iff (ix : Indexes) (d : IndexDefinition) :
    ((ix.define d).1 = true ↔ (ix.define d).2.toList = ix.toList ++ [d]) ∧
      ((ix.define d).1 = false ↔ (ix.define d).2 = ix) := by
  unfold define
  split
  · simp
  · have hne : (⟨ix.toList ++ [d]⟩ : Indexes) ≠ ix := fun h => by
      simpa using congrArg toList h
    simp [hne]

/-! ## Growth -/

/-- Definitions are added one after another. -/
def Grows (ix ix' : Indexes) : Prop := ∃ ds : List IndexDefinition, ds.foldl add ix = ix'

theorem Grows.refl (ix : Indexes) : ix.Grows ix := ⟨[], rfl⟩

theorem Grows.trans (h : ix.Grows ix') (h' : ix'.Grows ix'') : ix.Grows ix'' := by
  obtain ⟨ds, rfl⟩ := h
  obtain ⟨ds', rfl⟩ := h'
  exact ⟨ds ++ ds', List.foldl_append⟩

theorem grows_add (ix : Indexes) (d : IndexDefinition) : ix.Grows (ix.add d) := ⟨[d], rfl⟩

theorem grows_ofList (ds : List IndexDefinition) : Grows {} (ofList ds) := ⟨ds, rfl⟩

/-- **What has grown begins with what there was**, and there is still nothing twice. -/
theorem Grows.isPrefix_nodup (h : ix.Grows ix') :
    ix.toList <+: ix'.toList ∧ (ix.toList.Nodup → ix'.toList.Nodup) := by
  obtain ⟨ds, rfl⟩ := h
  induction ds generalizing ix with
  | nil => exact ⟨List.prefix_rfl, id⟩
  | cons d ds ih =>
    obtain ⟨hfront, hnodup⟩ := isPrefix_nodup_add ix d
    obtain ⟨hfront', hnodup'⟩ := @ih (ix.add d)
    exact ⟨hfront.trans hfront', hnodup' ∘ hnodup⟩

/-- **Of the definitions of a list, each is kept where it comes first.** -/
theorem toList_ofList (ds : List IndexDefinition) : (ofList ds).toList = ds.eraseDups := by
  induction ds using List.reverseRecOn with
  | nil => rfl
  | append_singleton ds d ih =>
    have hstep : ofList (ds ++ [d]) = (ofList ds).add d := by
      rw [ofList, List.foldl_append]
      rfl
    rw [hstep, toList_add, ih, Lists.eraseDups_concat]
    simp only [List.mem_eraseDups]

end Indexes

end FlatGraph
