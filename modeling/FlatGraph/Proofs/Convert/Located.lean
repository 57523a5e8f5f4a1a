import FlatGraph.Proofs.Convert.Depth
import FlatGraph.Proofs.Convert.Parallel
import FlatGraph.Proofs.Text.Utf8

/-!
# Where a read fails

**Theorem (`read_located`).** An error of a read points at what the record holds: the path that it
names is that of an entry, and the text that it shows is the value there; or, for the key of a map
entry, the text stands in brackets at the end of the path, and a key of the record begins with it.

Objects inside objects are read from what `extract` takes out of the record, and that again from
what it took out before. The invariant is that all of this is an `Excerpt`: each entry is one of the
record, under the same key, but for the type hint of the object, which is a copy. An error about
this hint names the path of the original.

No property may have an empty name. An object under such a name has the path of the root, where the
copy of the hint cannot be told from the hint. Where there is no such property, a read comes to an
end, too, if resolving references does (`read_ends`).
-/

namespace FlatGraph

open Traced (FailsWith)

/-- The resolver may find nothing, but never fails. -/
def Resolver.Total (resolve : Resolver) : Prop := ∀ reference e, resolve reference ≠ .error e

namespace Read

variable {r : Registry} {resolve : Resolver} {nested : Nested} {all es : Entries} {base q : String}

/-! ## What an error points at -/

/-- The record holds a value at exactly this path that shows as the text. -/
def ShownAt (es : Entries) (path text : String) : Prop :=
  ∃ bs, es.get? path = some bs ∧ Utf8.lossy bs = text

/-- The path ends with the text in brackets, and a key of the record begins with the path. -/
def BracketedAt (es : Entries) (path text : String) : Prop :=
  (∃ base, path = Path.element base text) ∧
    ∃ k, es.get? k ≠ none ∧ Text.beginsWith path k = true

/-- The error points at what the record holds. The one about a type that is not registered has
nothing to point at, as such a type is declared and not stored. -/
def Located (r : Registry) (es : Entries) : Error → Prop
  | .conversion path raw _ => ShownAt es path raw ∨ BracketedAt es path raw
  | .typeResolution type path => ShownAt es path type
  | .invalidReference path pointer => ShownAt es path pointer
  | .unknownType type => r.find? type = none
  | _ => False

/-! ## Excerpts -/

/-- What the object at a path is read from: entries of the record under their own keys, and the
hint of the object. -/
structure Excerpt (all : Entries) (path : String) (es : Entries) : Prop where
  entry : ∀ k v, k ≠ Path.hint → es.get? k = some v → all.get? k = some v
  hint : ∀ v, es.get? Path.hint = some v → all.get? (Path.hintOf path) = some v

/-- The record itself is what the root is read from. -/
theorem Excerpt.root (es : Entries) : Excerpt es "" es :=
  ⟨fun _ _ _ h => h, fun v h => by rwa [Path.hintOf_empty]⟩

/-- What lies below a path is read from there, however deep the path is. -/
theorem Excerpt.extract (h : Excerpt all base es) (hq : q ≠ "") : Excerpt all q (es.extract q) where
  entry k v hk hg := by
    rw [Entries.get?_extract, if_neg fun h' => hk h'.1] at hg
    split_ifs at hg
    exact h.entry k v hk hg
  hint v hg := by
    rw [Entries.get?_extract_hint] at hg
    refine h.entry _ v (fun heq => ?_) hg
    exact Path.not_below_hint q (heq ▸ Path.below_hintOf hq)

/-- At the path of a property and below it there are entries of the record only. -/
theorem Excerpt.get?_of_within (h : Excerpt all base es) {name : String} {v : Bytes}
    (hq : Path.Within (Path.join base name) q) (hg : es.get? q = some v) : all.get? q = some v := by
  by_cases hk : q = Path.hint
  · subst hk
    have hbase : base = "" := by
      by_contra hb
      exact Path.not_below_hint base ((Path.below_join hb name).trans_within hq)
    subst hbase
    simpa using h.hint v hg
  · exact h.entry q v hk hg

/-! ## Leaves -/

theorem lossy_of_decode {bs : Bytes} {text : String} (h : Utf8.decode bs = .ok text) :
    Utf8.lossy bs = text := by
  rw [← Utf8.decode_eq_ok_iff.1 h, Utf8.lossy_encode]

theorem decode_located {raw : Bytes} {type : ScalarType} {path : String}
    (h : ShownAt all path (Utf8.lossy raw) ∨ BracketedAt all path (Utf8.lossy raw)) :
    FailsWith (Located r all) (decode path raw type : Reading (Option Value)) := by
  refine .liftM fun e he => ?_
  unfold decode at he
  cases hd : type.decode raw <;> rw [hd] at he <;> cases he
  exact h

theorem pointer_located {raw : Bytes} (h : all.get? q = some raw) :
    FailsWith (Located r all) (pointer q raw : Reading (String × String)) := by
  refine .liftM fun e he => ?_
  unfold pointer at he
  split at he
  · next text ht =>
    split at he <;> cases he
    exact ⟨raw, h, lossy_of_decode ht⟩
  · cases he
    exact ⟨raw, h, rfl⟩

theorem leaf_located (hresolve : resolve.Total) {raw : Bytes} (h : all.get? q = some raw)
    (type : TypeRef) : FailsWith (Located r all) (leaf resolve q raw type) := by
  cases type with
  | scalar type => exact decode_located (.inl ⟨raw, h, rfl⟩)
  | entity type =>
    refine (pointer_located h).bind ?_
    rintro ⟨keyspace, id⟩ -
    refine (FailsWith.mark _).bind fun _ _ => ?_
    exact FailsWith.bind (.liftM fun e he => absurd he (hresolve _ e)) fun o _ => .pure _

/-- The key text of an element stands in brackets at the end of its path. -/
theorem bracketedAt_of_keyText {path text : String} {type : TypeRef} {reference : Bool}
    (hpath : ∀ k, Path.Below path k → es.get? k ≠ none → all.get? k ≠ none)
    (hq : q ∈ elementKeys type reference es path)
    (ht : keyText type reference (Path.elementStart path) q = some text) :
    BracketedAt all q text := by
  obtain ⟨k, hk, ho⟩ := mem_elementKeys_iff.1 hq
  have hall := hpath k (below_of_owner ho) hk
  rcases isLeaf_or_nested type reference with hl | ⟨declared, rfl, rfl⟩
  · rw [keyText_of_isLeaf hl, Path.leafKey?_eq_some_iff] at ht
    rw [owner_of_isLeaf hl] at ho
    split_ifs at ho
    cases ho
    exact ⟨⟨path, ht⟩, q, hall, by simpa using Text.beginsWith_append q ""⟩
  · obtain ⟨own, rest, hown, rfl, rfl⟩ := Path.elementPath?_eq_some_iff.1 ho
    have heq : some own = some text := (Path.elementKey?_element hown).symm.trans ht
    cases heq
    exact ⟨⟨path, rfl⟩, _, hall, Text.beginsWith_append _ _⟩

/-! ## Values -/

/-- Whatever excerpt an object is read from, errors point into the record. -/
abbrev NestedLocated (r : Registry) (all : Entries) (nested : Nested) : Prop :=
  ∀ path type es, Excerpt all path es → FailsWith (Located r all) (nested path type es)

variable (hresolve : resolve.Total) (hnested : NestedLocated r all nested)
  (hes : Excerpt all base es)

include hresolve hnested hes

theorem valueAt_located {name : String} (hq : Path.Within (Path.join base name) q) (hne : q ≠ "")
    (type : TypeRef) (reference : Bool) :
    FailsWith (Located r all) (valueAt resolve nested type reference es q) := by
  rcases isLeaf_or_nested type reference with hl | ⟨declared, rfl, rfl⟩
  · rw [valueAt_of_isLeaf hl]
    cases hg : es.get? q with
    | none => exact .pure _
    | some raw => exact leaf_located hresolve (hes.get?_of_within hq hg) type
  · show FailsWith _ (inner nested q declared es)
    unfold inner
    dsimp only
    split
    · exact .pure _
    · exact (hnested q declared _ (hes.extract hne)).bind fun o _ => .pure _

theorem property_located {p : Property} (hp : p.name ≠ "") :
    FailsWith (Located r all) (property resolve nested (Path.join base p.name) p es) := by
  have hne : Path.join base p.name ≠ "" := Path.join_ne_empty hp
  have hkeys : ∀ type q, q ∈ elementKeys type p.isReference es (Path.join base p.name) →
      FailsWith (Located r all) (valueAt resolve nested type p.isReference es q) := by
    intro type q hq
    have hb := below_of_mem_elementKeys hq
    exact valueAt_located hresolve hnested hes hb.within (Path.ne_empty_of_within hne hb.within)
      type p.isReference
  cases hs : p.shape with
  | single type =>
    rw [property_single hs]
    exact valueAt_located hresolve hnested hes (.self _) hne type p.isReference
  | list type =>
    unfold property
    rw [hs]
    simp only [elements_eq]
    exact (FailsWith.mapM fun q hq => (hkeys type q hq).map _).bind fun found _ => .pure _
  | map keyType type =>
    unfold property
    rw [hs]
    simp only [mapEntries_eq]
    refine (FailsWith.mapM fun q hq => ?_).bind fun found _ => .pure _
    cases ht : keyText type p.isReference (Path.elementStart (Path.join base p.name)) q with
    | none => exact .pure _
    | some text =>
      have hbracket : BracketedAt all q text := by
        refine bracketedAt_of_keyText (fun k hb hk => ?_) hq ht
        obtain ⟨v, hv⟩ := Option.ne_none_iff_exists'.1 hk
        rw [hes.get?_of_within hb.within hv]
        exact Option.some_ne_none v
      refine (decode_located (.inr (by rwa [Utf8.lossy_encode]))).bind fun key _ => ?_
      cases key with
      | none => exact .pure _
      | some key => exact (hkeys type q hq).bind fun v _ => .pure _

/-! ## Objects -/

omit hresolve hnested in
theorem resolveType_located (declared : String) :
    FailsWith (Located r all) (resolveType r base declared es : Reading EntityType) := by
  refine .liftM fun e he => ?_
  unfold resolveType at he
  split at he
  · unfold Registry.get at he
    split at he <;> cases he
    assumption
  · next raw hraw =>
    have hall := hes.hint raw hraw
    split at he
    · cases he
      exact ⟨raw, hall, rfl⟩
    · next type ht =>
      have hshown : ShownAt all (Path.hintOf base) type := ⟨raw, hall, lossy_of_decode ht⟩
      split at he
      · split at he <;> cases he
        exact hshown
      · cases he
        exact hshown

theorem level_located (hr : ∀ name t, r.find? name = some t → ∀ p ∈ t.properties, p.name ≠ "")
    (declared : String) : FailsWith (Located r all) (level r resolve nested base declared es) := by
  refine (resolveType_located hes declared).bind fun t ht => ?_
  obtain ⟨name, hname⟩ := find?_of_resolveType ht
  refine FailsWith.bind (.mapM fun p hp => ?_) fun found _ => .pure _
  have hmem : p ∈ t.properties := (List.filter_append_perm _ _).mem_iff.1 hp
  exact (property_located hresolve hnested hes (hr name t hname p hmem)).bind fun v _ => .pure _

omit hnested hes in
/-- **At every depth, errors point into the record.** -/
theorem levels_located (hr : ∀ name t, r.find? name = some t → ∀ p ∈ t.properties, p.name ≠ "")
    {beyond : Nested} (hbeyond : NestedLocated r all beyond) (depth : Nat) :
    NestedLocated r all (levels r resolve beyond depth) := by
  induction depth with
  | zero => exact hbeyond
  | succ depth ih =>
    intro path type es hes
    rw [levels_succ]
    exact level_located hresolve ih hes hr type

end Read

theorem Registry.read_failsWith_located {r : Registry} {resolve : Resolver}
    (hr : ∀ name t, r.find? name = some t → ∀ p ∈ t.properties, p.name ≠ "")
    (hresolve : resolve.Total) (type : String) (es : Entries) :
    FailsWith (Read.Located r es) (r.read resolve type es) := by
  -- the depth of the read does not matter, so that nothing fails beyond it
  rw [read_eq_of_names hr fun _ _ _ => pure ⟨"", []⟩]
  split
  · exact .pure _
  · exact (Read.levels_located hresolve hr (fun _ _ _ _ => .pure _) _ _ _ _ (.root es)).map some

/-- **An error of a read points at what the record holds.** -/
theorem Registry.read_located {r : Registry} {resolve : Resolver} {type : String} {es : Entries}
    {e : Error} (hr : ∀ name t, r.find? name = some t → ∀ p ∈ t.properties, p.name ≠ "")
    (hresolve : resolve.Total) (h : (r.read resolve type es).outcome = .error e) :
    Read.Located r es e := read_failsWith_located hr hresolve type es e h

/-! ## Reads that end -/

/-- The error stands for a read that goes on without end. -/
def Error.Unending (e : Error) : Prop := ∃ type path, e = .endless type path

theorem Read.Located.not_unending {r : Registry} {es : Entries} {e : Error}
    (h : Read.Located r es e) : ¬ e.Unending := by
  rintro ⟨type, path, rfl⟩
  exact h

/-- **Where no property has an empty name, a read ends** if resolving references does. -/
theorem Registry.read_ends {r : Registry} {resolve : Resolver}
    (hr : ∀ name t, r.find? name = some t → ∀ p ∈ t.properties, p.name ≠ "")
    (hresolve : ∀ reference e, resolve reference = .error e → ¬ e.Unending) (type : String)
    (es : Entries) : FailsWith (¬ ·.Unending) (r.read resolve type es) := by
  intro e he
  -- beside the read, one with a resolver that finds nothing where this one fails
  let total : Resolver := fun reference => .ok (resolve reference).toOption.join
  have htotal : total.Total := fun _ _ h => by cases h
  have hparallel := r.read_parallel resolve total type es
  by_cases hfails : ∃ reference ∈ (r.read resolve type es).trace, ∃ e',
      resolve reference = .error e'
  · obtain ⟨reference, hm, e', he'⟩ := hfails
    cases (hparallel.surfaces reference hm e' he').symm.trans he
    exact hresolve reference e he'
  · have hsame := hparallel.same fun reference hm => by
      cases ho : resolve reference with
      | ok o? => simp only [total, ho, Except.toOption, Option.join_some]
      | error e' => exact absurd ⟨reference, hm, e', ho⟩ hfails
    rw [← hsame] at he
    exact (read_failsWith_located hr htotal type es e he).not_unending

/-! ## Harbours -/

namespace Harbours

open Read

/-- The length of a boat. -/
def length : Property := { name := "length", shape := .single (.scalar (.int .w16)) }

/-- The harbour that a boat comes from. -/
def origin : Property :=
  { name := "from", shape := .single (.entity "Harbour"), isReference := true }

/-- The boats at a pier, by their berths. -/
def berths : Property := { name := "berths", shape := .map (.int .w8) (.entity "Boat") }

/-- The piers of a harbour. -/
def piers : Property := { name := "piers", shape := .list (.entity "Pier") }

/-- The registry of harbours. -/
def harbours : Registry :=
  ⟨[("Boat", { name := "Boat", properties := [length, origin] }),
    ("Harbour", { name := "Harbour", properties := [piers] }),
    ("Pier", { name := "Pier", properties := [berths] })]⟩

/-- A harbour where something lies in the third berth of the first pier: as `key` has it, for what
stands there, and below the path of what lies there. -/
def harbour (berth key value : String) : Entries :=
  Entries.empty.putAll
    [("_class", Utf8.encode "Harbour"), ("piers.[0].berths.[" ++ berth ++ "]." ++ key,
      Utf8.encode value)]

/-- A boat of a length that is no number, one that is no boat, one from nowhere, and one at a berth
without number, each with the error that it is read with. -/
def mishaps : List (Entries × Error) :=
  [(harbour "3" "length" "long", .conversion "piers.[0].berths.[3].length" "long"
      (.conversion (ScalarType.int .w16).name "long" (.notInteger .badDigit))),
    (harbour "3" "_class" "Kraken", .typeResolution "Kraken" "piers.[0].berths.[3]._class"),
    (harbour "3" "from" "nowhere", .invalidReference "piers.[0].berths.[3].from" "nowhere"),
    (harbour "x" "length" "8", .conversion "piers.[0].berths.[x]" "x"
      (.conversion (ScalarType.int .w8).name "x" (.notInteger .badDigit)))]

theorem names_harbours :
    ∀ name t, harbours.find? name = some t → ∀ p ∈ t.properties, p.name ≠ "" := by
  intro name t ht
  have htypes : ∀ e ∈ harbours.types, ∀ p ∈ e.2.properties, p.name ≠ "" := by decide
  exact htypes _ (Registry.mem_types_of_find? ht)

theorem read_mishaps :
    ∀ m ∈ mishaps, (harbours.read .nothing "Harbour" m.1).outcome = .error m.2 := by
  have hfail : ∀ m ∈ mishaps,
      (harbours.read .nothing "Harbour" m.1).outcome.map (fun _ => ()) = .error m.2 := by
    decide +kernel
  intro m hm
  have h := hfail m hm
  cases ho : (harbours.read .nothing "Harbour" m.1).outcome with
  | ok o => simp [ho, Except.map] at h
  | error e => simpa [ho, Except.map] using h

/-- Each mishap points at the record of the harbour, three objects up. -/
theorem read_located_mishaps :
    (∀ name t, harbours.find? name = some t → ∀ p ∈ t.properties, p.name ≠ "") ∧
    Resolver.nothing.Total ∧
    ∀ m ∈ mishaps, (harbours.read .nothing "Harbour" m.1).outcome = .error m.2 ∧
      Located harbours m.1 m.2 := by
  have htotal : Resolver.nothing.Total := fun _ _ h => by cases h
  refine ⟨names_harbours, htotal, fun m hm => ⟨read_mishaps m hm, ?_⟩⟩
  exact Registry.read_located names_harbours htotal (read_mishaps m hm)

end Harbours

end FlatGraph
