import FlatGraph.Proofs.Convert.Met
import FlatGraph.Proofs.Model.Schema
import FlatGraph.Report.Listing

/-!
# The listing and the writer

**Theorem (`listed_iff_marked`).** The listing has the configured indexes first, and then others,
no two of which are the same, and none of which is configured. Of the index definitions that there
are after objects were written, it has exactly those that are configured or that a type marks which
is stored in that keyspace itself.

So it may lack one (`not_listed`). A write makes definitions for all that it meets, in the keyspace
of the root (`Registry.Meets`), and the listing knows each type in its own keyspace only. What is
not listed was made for an object inside another one, of a type with another keyspace
(`Registry.MarksInside`).
-/

namespace FlatGraph

/-- A type that is stored in the keyspace of the definition marks a property of that name. -/
def Registry.Marks (r : Registry) (d : IndexDefinition) : Prop :=
  ∃ name t, r.find? name = some t ∧ t.keyspace = d.keyspace ∧
    ∃ p ∈ t.properties, p.isIndexed = true ∧ p.name = d.property

/-- The object is stored in the keyspace of the definition. The type of an object inside it marks
a property of that name, and has another keyspace. -/
def Registry.MarksInside (r : Registry) (o : Object) (d : IndexDefinition) : Prop :=
  ∃ root, r.find? o.type = some root ∧ root.keyspace = d.keyspace ∧
    ∃ declared runtime fields t p v,
      Occurs r (.element (.entity declared), .object runtime fields) o.whole ∧
      r.find? runtime = some t ∧ t.keyspace ≠ d.keyspace ∧ p ∈ t.properties ∧
      p.isIndexed = true ∧ p.name = d.property ∧ Fields.get? fields p.name = some v

theorem Config.contains_definitions_iff {c : Config} {d : IndexDefinition} :
    c.definitions.contains d = true ↔ d ∈ c.indexes := by
  rw [definitions, Indexes.contains, Indexes.toList_ofList]
  simp

namespace Report

/-! ## Rows -/

/-- The definitions that are listed. -/
def listed (r : Registry) (c : Config) : List IndexDefinition := (rows r c).map (·.definition)

theorem mem_declaredIndexes_iff {r : Registry} (hb : r.Built) {d : IndexDefinition} :
    d ∈ declaredIndexes r ↔ r.Marks d := by
  simp only [declaredIndexes, List.mem_flatMap, List.mem_map, List.mem_filter, Prod.exists,
    hb.mem_types_iff, Registry.Marks]
  refine exists_congr fun name => exists_congr fun t => and_congr_right fun _ => ?_
  constructor
  · rintro ⟨p, ⟨hp, hmark⟩, rfl⟩
    exact ⟨rfl, p, hp, hmark, rfl⟩
  · rintro ⟨hkeyspace, p, hp, hmark, hname⟩
    exact ⟨p, ⟨hp, hmark⟩, by rw [hkeyspace, hname]⟩

theorem addDeclared_eq (rs : List Row) (d : IndexDefinition) :
    addDeclared rs d = if d ∈ rs.map (·.definition) then rs else rs ++ [⟨d, .declared⟩] := by
  have hany : rs.any (·.definition == d) = true ↔ d ∈ rs.map (·.definition) := by simp
  unfold addDeclared
  simp only [hany]

/-- Declared indexes are added behind the rows that there are, each once. -/
theorem foldl_addDeclared (ds : List IndexDefinition) (rs : List Row) :
    ∃ added : List IndexDefinition,
      ds.foldl addDeclared rs = rs ++ added.map (⟨·, .declared⟩) ∧ added.Nodup ∧
        ∀ d, d ∈ added ↔ d ∈ ds ∧ d ∉ rs.map (·.definition) := by
  induction ds generalizing rs with
  | nil => exact ⟨[], by simp, .nil, by simp⟩
  | cons e ds ih =>
    rw [List.foldl_cons, addDeclared_eq]
    by_cases he : e ∈ rs.map (·.definition)
    · rw [if_pos he]
      obtain ⟨added, heq, hnodup, hmem⟩ := ih rs
      refine ⟨added, heq, hnodup, fun d => (hmem d).trans ?_⟩
      rw [List.mem_cons]
      refine and_congr_left fun hd => (or_iff_right ?_).symm
      rintro rfl
      exact hd he
    · rw [if_neg he]
      obtain ⟨added, heq, hnodup, hmem⟩ := ih (rs ++ [⟨e, .declared⟩])
      simp only [List.map_append, List.map_cons, List.map_nil, List.mem_append,
        List.mem_singleton, not_or] at hmem
      refine ⟨e :: added, by rw [heq, List.append_assoc]; rfl, ?_, fun d => ?_⟩
      · exact List.nodup_cons.2 ⟨fun h => ((hmem e).1 h).2.2 rfl, hnodup⟩
      · rw [List.mem_cons, List.mem_cons, hmem]
        by_cases hd : d = e
        · subst hd
          simp [he]
        · simp [hd]

/-- The rows of the listing: those of the configuration, and behind them one for each other index
that a type marks. -/
theorem rows_eq {r : Registry} (hb : r.Built) (c : Config) :
    ∃ added : List IndexDefinition,
      rows r c = c.indexes.map (⟨·, .configured⟩) ++ added.map (⟨·, .declared⟩) ∧
        added.Nodup ∧ ∀ d, d ∈ added ↔ r.Marks d ∧ d ∉ c.indexes := by
  obtain ⟨added, heq, hnodup, hmem⟩ :=
    foldl_addDeclared (declaredIndexes r) (c.indexes.map (⟨·, .configured⟩))
  refine ⟨added, heq, hnodup, fun d => (hmem d).trans ?_⟩
  rw [mem_declaredIndexes_iff hb, List.map_map]
  simp

theorem mem_listed_iff {r : Registry} (hb : r.Built) {c : Config} {d : IndexDefinition} :
    d ∈ listed r c ↔ d ∈ c.indexes ∨ r.Marks d := by
  obtain ⟨added, heq, -, hmem⟩ := rows_eq hb c
  have hlisted : listed r c = c.indexes ++ added := by
    rw [listed, heq, List.map_append, List.map_map, List.map_map]
    exact congrArg₂ _ (List.map_id _) (List.map_id _)
  rw [hlisted, List.mem_append, hmem]
  tauto

/-! ## Definitions after writes -/

/-- What a write meets is marked in the keyspace of the root, or by the type of an object inside
that is stored elsewhere. -/
theorem marks_or_marksInside {r : Registry} {o : Object} {d : IndexDefinition} {text : String}
    (h : r.Meets o d.keyspace d.property true text) : r.Marks d ∨ r.MarksInside o d := by
  obtain ⟨root, hroot, hkeyspace, declared, runtime, fields, t, p, v, hocc, ht, hp, hv, hname,
    hmark⟩ := h.exists_holder
  by_cases heq : t.keyspace = d.keyspace
  · exact .inl ⟨runtime, t, ht, heq, p, hp, hmark, hname⟩
  · exact .inr ⟨root, hroot, hkeyspace, declared, runtime, fields, t, p, v, hocc, ht, heq, hp,
      hmark, hname, hv⟩

/-- **Of the index definitions after writes, those are listed that are configured or marked by a
type in that keyspace.** Others were made for an object inside a written one. -/
theorem listed_iff_marked {s : Schema} {r : Registry} (hs : Registry.ofSchema s = .ok r)
    (c : Config) (os : List Object) :
    (∃ added : List IndexDefinition,
      rows r c = c.indexes.map (⟨·, .configured⟩) ++ added.map (⟨·, .declared⟩) ∧
        added.Nodup ∧ ∀ d ∈ added, d ∉ c.indexes) ∧
    ∀ d, (r.indexesAfter c.definitions os).contains d = true →
      (d ∈ listed r c ↔ d ∈ c.indexes ∨ r.Marks d) ∧
      (d ∈ listed r c ∨ ∃ o ∈ os, r.MarksInside o d) := by
  have hb := Registry.built_of_ofSchema hs
  refine ⟨?_, fun d hd => ⟨mem_listed_iff hb, ?_⟩⟩
  · obtain ⟨added, heq, hnodup, hmem⟩ := rows_eq hb c
    exact ⟨added, heq, hnodup, fun d hd => ((hmem d).1 hd).2⟩
  · rw [mem_listed_iff hb]
    rw [Registry.contains_indexesAfter_iff, Config.contains_definitions_iff] at hd
    obtain hd | ⟨o, ho, text, hmeets⟩ := hd
    · exact .inl (.inl hd)
    · exact (marks_or_marksInside hmeets).imp .inr fun h => ⟨o, ho, h⟩

/-! ## Citizens -/

open Citizens (registry ann)

/-- Citizens and their towns, of which the towns are found by their names. -/
def citizens : Schema := {
  entities := [
    { name := "Town", properties := [{ name := "name", type := "text", indexed := true }] },
    { name := "Citizen",
      properties := [{ name := "name", type := "text" }, { name := "town", type := "Town" }] }] }

theorem ofSchema_citizens : Registry.ofSchema citizens = .ok registry := by decide +kernel

/-- The town makes an index for the citizens. -/
theorem contains_indexesAfter_ann :
    (registry.indexesAfter ({} : Config).definitions [ann]).contains ⟨"Citizen", "name"⟩ =
      true := by
  decide +kernel

/-- The index on the names of citizens is not listed, and was made for the town. -/
theorem listed_iff_marked_citizens :
    Registry.ofSchema citizens = .ok registry ∧
    (registry.indexesAfter ({} : Config).definitions [ann]).contains ⟨"Citizen", "name"⟩ = true ∧
    ⟨"Citizen", "name"⟩ ∉ listed registry {} ∧
    ∃ o ∈ [ann], registry.MarksInside o ⟨"Citizen", "name"⟩ := by
  have hlisted : ⟨"Citizen", "name"⟩ ∉ listed registry {} := by decide +kernel
  have hmade := ((listed_iff_marked ofSchema_citizens {} [ann]).2 _ contains_indexesAfter_ann).2
  exact ⟨ofSchema_citizens, contains_indexesAfter_ann, hlisted, hmade.resolve_left hlisted⟩

/-- Not each index definition that a write makes is listed. -/
theorem not_listed :
    ¬ ∀ (s : Schema) (r : Registry) (c : Config) (os : List Object),
      Registry.ofSchema s = .ok r → c.check = .ok () →
      ∀ d, (r.indexesAfter c.definitions os).contains d = true → d ∈ listed r c := by
  intro h
  have hlisted := h citizens registry {} [ann] ofSchema_citizens (by decide +kernel)
    ⟨"Citizen", "name"⟩ contains_indexesAfter_ann
  revert hlisted
  decide +kernel

end Report

end FlatGraph
