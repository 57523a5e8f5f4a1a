import FlatGraph.Proofs.Convert.Fragments

/-!
# Index definitions over time

Index definitions are shared by all that is written. A call may define an index, or write an object,
which defines indexes on its way, even if it fails in the end.

**Growth.** Each step of each call adds definitions (`Indexes.Grows`), and so does any number of
calls. This is all that is needed for what holds at every moment: earlier definitions are a
beginning of later ones, and no two of them are the same.

**What a write adds** (`Registry.Warrants`). Each definition that a write adds is for a value in the
object, of a property that is marked as indexed. If the write succeeds, there is a definition for
each such value. Objects that are only referred to do not count.

Main result: `Registry.definitions_grow`.
-/

namespace FlatGraph

/-! ## Calls -/

/-- What may happen to index definitions. -/
inductive IndexCall where
  | define (d : IndexDefinition)
  | write (o : Object)

theorem Step.grows_foldl_apply (keyspace : String) (steps : List Step) (record : Record)
    (ix : Indexes) : ix.Grows (steps.foldl (Step.apply keyspace) (record, ix)).2 := by
  induction steps generalizing record ix with
  | nil => exact .refl ix
  | cons step steps ih =>
    have hstep : ix.Grows (Step.apply keyspace (record, ix) step).2 := by
      cases step with
      | entry | identify => exact .refl ix
      | index property always text =>
        simp only [Step.apply]
        split <;> split <;> first | exact .refl ix | exact ix.grows_add _
    rw [List.foldl_cons, ← Prod.mk.eta (p := Step.apply keyspace (record, ix) step)]
    exact hstep.trans (ih _ _)

namespace Registry

variable {r : Registry} {ix : Indexes} {o : Object} {d : IndexDefinition}

/-- The index definitions after a call. A write that fails leaves those that it made. -/
def call (r : Registry) (ix : Indexes) : IndexCall → Indexes
  | .define d => (ix.define d).2
  | .write o => (r.write ix o).2

/-- The index definitions after calls, one after another. -/
def afterCalls (r : Registry) (ix : Indexes) (calls : List IndexCall) : Indexes :=
  calls.foldl r.call ix

theorem grows_write (r : Registry) (ix : Indexes) (o : Object) : ix.Grows (r.write ix o).2 := by
  cases ht : r.find? o.type with
  | none => simpa [write, get, ht] using Indexes.Grows.refl ix
  | some t =>
    rw [write_of_outline ht rfl]
    exact Step.grows_foldl_apply _ _ _ _

theorem grows_call (r : Registry) (ix : Indexes) (c : IndexCall) : ix.Grows (r.call ix c) := by
  cases c with
  | define d => exact ix.grows_add d
  | write o => exact r.grows_write ix o

/-- **Calls make definitions grow.** -/
theorem grows_afterCalls (r : Registry) (ix : Indexes) (calls : List IndexCall) :
    ix.Grows (r.afterCalls ix calls) := by
  induction calls generalizing ix with
  | nil => exact .refl ix
  | cons c calls ih => exact (r.grows_call ix c).trans (ih _)

/-! ## What a write adds -/

/-- A property that is marked as indexed and holds one scalar has a value in the object, or in one
that is stored inside it, at any depth. The definition is for the name of the property, in the
keyspace of the outer object. -/
def Warrants (r : Registry) (o : Object) (d : IndexDefinition) : Prop :=
  ∃ root, r.find? o.type = some root ∧ root.keyspace = d.keyspace ∧
    ∃ declared runtime fields t p v,
      Occurs r (.element (.entity declared), .object runtime fields) o.whole ∧
      r.find? runtime = some t ∧ p ∈ t.properties ∧ p.isIndexed = true ∧
      p.shape.isSingleScalar = true ∧ p.name = d.property ∧ Fields.get? fields p.name = some v

theorem warrants_of_meets (hb : r.Built) {text : String}
    (h : r.Meets o d.keyspace d.property true text) : r.Warrants o d := by
  obtain ⟨root, hroot, hkeyspace, declared, runtime, fields, t, p, v, hocc, ht, hp, hv, hname,
    hmark⟩ := h.exists_holder
  have hrules := EntityType.propertyViolation?_eq_none_iff.1 ((hb.sound ht).2.property p hp)
  exact ⟨root, hroot, hkeyspace, declared, runtime, fields, t, p, v, hocc, ht, hp, hmark,
    hrules.2.2.2 hmark, hname, hv⟩

/-- The value of a scalar property that was written has a text by which it may be found. -/
theorem exists_indexedText {p : Property} {v : Value} {type : ScalarType}
    (hw : Written r (.property p, v)) (hs : p.shape = .single (.scalar type))
    (hr : p.isReference = false) : ∃ text, p.indexedText type v = .ok text := by
  unfold Property.indexedText
  split
  · next hid =>
    obtain ⟨root, path, xs, hl⟩ := hw
    obtain ⟨id, hi, -⟩ := (Write.leaves_property_of_isId hid).1 hl
    exact ⟨id, (Write.idText_eq_ok_iff.1 hi).2⟩
  · next hid =>
    obtain ⟨bs, hb⟩ := written_scalar_iff.1
      (written_of_partOf (.single (by simpa using hid) hr hs) hw)
    exact ⟨Utf8.lossy bs, Outcome.map_eq_ok_iff.2 ⟨bs, hb, rfl⟩⟩

theorem meets_of_warrants (hb : r.Built) {record : Record} (h : (r.write ix o).1 = .ok record)
    (hd : r.Warrants o d) : ∃ text, r.Meets o d.keyspace d.property true text := by
  obtain ⟨root, hroot, hkeyspace, declared, runtime, fields, t, p, v, hocc, ht, hp, hmark, hscalar,
    hname, hv⟩ := hd
  obtain ⟨type, hs⟩ := Shape.isSingleScalar_iff.1 hscalar
  have hrules := EntityType.propertyViolation?_eq_none_iff.1 ((hb.sound ht).2.property p hp)
  have hr : p.isReference = false := by
    by_contra hr
    obtain ⟨name, hentity⟩ := hrules.2.2.1 (by simpa using hr)
    rw [hs] at hentity
    cases hentity
  have hvalue : Occurs r (.property p, v) o.whole := hocc.head (.field ht hp hv)
  have hw := written_of_write h
  obtain ⟨address, path, hl⟩ := exists_leads_of_occurs hvalue hw (by simp) ""
  obtain ⟨text, htext⟩ := exists_indexedText (written_of_occurs hvalue hw) hs hr
  obtain ⟨isRoot, hincludes⟩ := outline_includes hroot hl
  obtain ⟨⟨⟨⟩, houtcome⟩, hsub⟩ := hincludes () (record_of_write h hroot).1
  have hmem := hsub
    (Write.scalar_mem_property (.inr hs) (Fields.isNull_of_get? hv) htext houtcome).1
  rw [hname, hmark] at hmem
  exact ⟨text, root, hroot, hkeyspace, hmem⟩

/-- **A write adds definitions behind those that there are, each for a value in the object.** -/
theorem exists_added_of_write (hb : r.Built) (hix : ix.toList.Nodup) :
    ∃ added, (r.write ix o).2.toList = ix.toList ++ added ∧ ∀ d ∈ added, r.Warrants o d := by
  obtain ⟨⟨added, heq⟩, hnodup⟩ := (r.grows_write ix o).isPrefix_nodup
  refine ⟨added, heq.symm, fun d hd => ?_⟩
  have hnew : d ∉ ix.toList := by
    have := hnodup hix
    rw [← heq, List.nodup_append] at this
    exact fun hold => this.2.2 d hold d hd rfl
  have hafter : (r.write ix o).2.contains d = true := by
    rw [Indexes.contains, ← heq]
    simp [hd]
  obtain hold | ⟨text, hmeets⟩ := contains_write_iff.1 hafter
  · exact absurd (by simpa [Indexes.contains] using hold) hnew
  · exact warrants_of_meets hb hmeets

/-- **Index definitions grow, whatever is called, and are never made twice.** -/
theorem definitions_grow (hb : r.Built) (seed : List IndexDefinition) (calls : List IndexCall)
    (hix : ix = r.afterCalls (.ofList seed) calls) :
    (Indexes.ofList seed).toList = seed.eraseDups ∧
    (ix.toList.map fun d => (d.keyspace, d.property)).Nodup ∧
    (∀ later, ix.toList <+: (r.afterCalls ix later).toList) ∧
    (∀ d, ((ix.define d).1 = true ↔ (ix.define d).2.toList = ix.toList ++ [d]) ∧
      ((ix.define d).1 = false ↔ (ix.define d).2 = ix)) ∧
    ∀ o, (∃ added, (r.write ix o).2.toList = ix.toList ++ added ∧ ∀ d ∈ added, r.Warrants o d) ∧
      ∀ record, (r.write ix o).1 = .ok record →
        ∀ d, r.Warrants o d → d ∈ (r.write ix o).2.toList := by
  have hnodup : ix.toList.Nodup := by
    rw [hix]
    exact ((Indexes.grows_ofList seed).trans (r.grows_afterCalls _ calls)).isPrefix_nodup.2
      List.nodup_nil
  refine ⟨Indexes.toList_ofList seed, ?_,
    fun later => (r.grows_afterCalls ix later).isPrefix_nodup.1, ix.define_iff,
    fun o => ⟨exists_added_of_write hb hnodup, ?_⟩⟩
  · refine hnodup.map fun d e h => ?_
    obtain ⟨hkeyspace, hproperty⟩ := Prod.mk.inj h
    cases d
    cases e
    cases hkeyspace
    cases hproperty
    rfl
  · intro record hrecord d hd
    have hafter : (r.write ix o).2.contains d = true :=
      contains_write_iff.2 (Or.inr (meets_of_warrants hb hrecord hd))
    simpa [Indexes.contains] using hafter

end Registry

/-! ## Orchards -/

namespace Orchards

/-- The sort of a tree. -/
def sort : Property := { name := "sort", shape := .single (.scalar .text), isIndexed := true }

/-- The age of a tree. -/
def age : Property := { name := "age", shape := .single (.scalar (.int .w8)), isIndexed := true }

/-- The trees of an orchard. -/
def trees : Property := { name := "trees", shape := .list (.entity "Tree") }

def tree : EntityType := { name := "Tree", properties := [sort, age] }

def orchard : EntityType := { name := "Orchard", properties := [trees] }

/-- The registry of orchards. -/
def orchards : Registry := ⟨[("Orchard", orchard), ("Tree", tree)]⟩

theorem built_orchards : orchards.Built := by
  have htree : ({} : Registry).register tree = .ok (tree, ⟨[("Tree", tree)]⟩) := by
    decide +kernel
  have horchard : (⟨[("Tree", tree)]⟩ : Registry).register orchard = .ok (orchard, orchards) := by
    decide +kernel
  exact .register (.register .empty htree) horchard

/-- An orchard with one tree. -/
def withTree (years : Int64) : Object where
  type := "Orchard"
  fields := [("trees", .list [.object "Tree" [("sort", .text "pear"), ("age", .integer years)]])]

/-- Definitions for shops and orchards, one of them given twice. -/
def seed : List IndexDefinition :=
  [⟨"Shop", "name"⟩, ⟨"Orchard", "age"⟩, ⟨"Shop", "name"⟩]

/-- The definitions after a write that fails. -/
def grown : Indexes := ⟨[⟨"Shop", "name"⟩, ⟨"Orchard", "age"⟩, ⟨"Orchard", "sort"⟩]⟩

theorem afterCalls_old :
    grown = orchards.afterCalls (.ofList seed) [.write (withTree 300)] := by
  decide +kernel

theorem write_young : ∃ record, (orchards.write grown (withTree 3)).1 = .ok record :=
  Outcome.exists_of_isOk (by decide +kernel)

/-- The tree that is too old makes an index on sorts before the write fails. Nothing takes it away
again, and a tree that can be written finds all its indexes there. -/
theorem definitions_grow_orchards : orchards.Built ∧
    grown = orchards.afterCalls (.ofList seed) [.write (withTree 300)] ∧
    (Indexes.ofList seed).toList = seed.eraseDups ∧
    (∀ later, grown.toList <+: (orchards.afterCalls grown later).toList) ∧
    ((grown.define ⟨"Orchard", "sort"⟩).1 = false ↔
      (grown.define ⟨"Orchard", "sort"⟩).2 = grown) ∧
    (∃ record, (orchards.write grown (withTree 3)).1 = .ok record) ∧
    ∀ d, orchards.Warrants (withTree 3) d → d ∈ (orchards.write grown (withTree 3)).2.toList := by
  obtain ⟨hseed, -, hlater, hdefine, hwrite⟩ :=
    Registry.definitions_grow built_orchards seed [.write (withTree 300)] afterCalls_old
  obtain ⟨record, hrecord⟩ := write_young
  exact ⟨built_orchards, afterCalls_old, hseed, hlater, (hdefine _).2, ⟨record, hrecord⟩,
    (hwrite (withTree 3)).2 record hrecord⟩

end Orchards

end FlatGraph
