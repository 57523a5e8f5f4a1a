import FlatGraph.Proofs.Convert.Region
import FlatGraph.Proofs.Number.Integer

/-!
# Elements in a record

The elements of a list or a map that was written are found again: the keys at which elements are
read are the paths at which they were written, in the same order (`elementKeys_of_parts`), and the
regions of the elements are apart (`apart_elements`). For this the key texts have to differ, and
those of nested objects must not hold a closing bracket.

The place of an item in a list is its index, as far as words go (`place_element`).
-/

namespace FlatGraph

open FlatGraph.Path (Below Within)

variable {type : TypeRef} {reference : Bool} {base : String} {texts : List String}
  {parts : List (List (String × Bytes))} {es : Entries}

/-- The key texts tell elements apart. -/
structure Telling (type : TypeRef) (reference : Bool) (texts : List String) : Prop where
  distinct : texts.Nodup
  no_bracket : Read.isLeaf type reference = false → ∀ text ∈ texts, ']' ∉ text.toList

/-- The texts of the keys of a map differ, and where they stand for objects there are no closing
brackets in them. -/
structure ScalarType.TellsApart (key : ScalarType) (leaf : Bool) (ks : List Value) : Prop where
  distinct : (ks.map key.keyText).Nodup
  no_bracket : leaf = false → ∀ k ∈ ks, ∀ text, key.keyText k = .ok text → ']' ∉ text.toList

namespace ScalarType.TellsApart

variable {key : ScalarType} {leaf : Bool} {entries : List (Value × Value)}

theorem telling {textOf : Value × Value → String}
    (h : key.TellsApart (Read.isLeaf type reference) (entries.map Prod.fst))
    (ht : ∀ e ∈ entries, key.keyText e.1 = .ok (textOf e)) :
    Telling type reference (entries.map textOf) := by
  have htexts : (entries.map textOf).map Except.ok = (entries.map Prod.fst).map key.keyText := by
    rw [List.map_map, List.map_map]
    exact List.map_congr_left fun e he => (ht e he).symm
  refine ⟨.of_map Except.ok (htexts ▸ h.distinct), fun hl text hm => ?_⟩
  obtain ⟨e, he, rfl⟩ := List.mem_map.1 hm
  exact h.no_bracket hl _ (List.mem_map_of_mem he) _ (ht e he)

variable (h : key.TellsApart leaf (entries.map Prod.fst)) {e f : Value × Value} {i j : Nat}
  {text : String}

include h

theorem no_bracket_of_getElem? (hl : leaf = false) (hi : entries[i]? = some e)
    (ht : key.keyText e.1 = .ok text) : ']' ∉ text.toList :=
  h.no_bracket hl _ (List.mem_map_of_mem (List.mem_of_getElem? hi)) _ ht

/-- An entry is determined by the text of its key. -/
theorem index_eq (hi : entries[i]? = some e) (hj : entries[j]? = some f)
    (ht : key.keyText e.1 = .ok text) (ht' : key.keyText f.1 = .ok text) : i = j := by
  have hkeys : ∀ {e : Value × Value} {i : Nat}, entries[i]? = some e →
      key.keyText e.1 = .ok text →
        ((entries.map Prod.fst).map key.keyText)[i]? = some (.ok text) := fun hi ht => by
    rw [List.map_map, List.getElem?_map, hi, Option.map_some, Function.comp_apply, ht]
  have hlt := (List.getElem?_eq_some_iff.1 (hkeys hi ht)).1
  exact (List.getElem?_inj hlt h.distinct).1 ((hkeys hi ht).trans (hkeys hj ht').symm)

end ScalarType.TellsApart

/-- What elements are written as, each at its key text. -/
def ElementParts (type : TypeRef) (reference : Bool) (base : String) (texts : List String)
    (parts : List (List (String × Bytes))) : Prop :=
  List.Forall₂ (fun text ys => ys ≠ [] ∧ Tidy ys ∧
    ∀ x ∈ ys, covers type reference (Path.element base text) x.1 = true) texts parts

/-! ## Regions of elements -/

/-- A key belongs to one element at most. -/
theorem eq_of_covers_element {s t key : String}
    (hs : Read.isLeaf type reference = false → ']' ∉ s.toList)
    (ht : Read.isLeaf type reference = false → ']' ∉ t.toList)
    (h : covers type reference (Path.element base s) key = true)
    (h' : covers type reference (Path.element base t) key = true) : s = t := by
  cases hl : Read.isLeaf type reference with
  | true =>
    exact Path.element_injective base
      (((covers_leaf_iff hl).1 h).symm.trans ((covers_leaf_iff hl).1 h'))
  | false =>
    exact Path.element_inj_of_within (hs hl) (ht hl) ((covers_nested_iff hl).1 h)
      ((covers_nested_iff hl).1 h')

theorem apart_elements (h : Telling type reference texts) :
    Apart (fun text => covers type reference (Path.element base text)) texts := by
  have hne : texts.Pairwise (· ≠ ·) := h.distinct
  refine hne.imp_of_mem fun {s t} hs ht hst k hk => ?_
  rw [← Bool.not_eq_true]
  intro hk'
  exact hst (eq_of_covers_element (fun hl => h.no_bracket hl s hs)
    (fun hl => h.no_bracket hl t ht) hk hk')

theorem beginsWith_of_parts (h : ElementParts type reference base texts parts)
    {x : String × Bytes} (hx : x ∈ parts.flatten) :
    Text.beginsWith (Path.elementStart base) x.1 = true := by
  obtain ⟨text, -, hr⟩ := exists_region_of_mem (h.imp fun _ _ h => h.2.2) hx
  exact Path.beginsWith_of_within_element (within_of_covers hr)

theorem below_of_parts (h : ElementParts type reference base texts parts)
    (hh : Holds es (inRegion base) parts.flatten) :
    es.below (Path.elementStart base) = parts.flatten := by
  have hsub : Holds es (Text.beginsWith (Path.elementStart base)) _ := hh.sub fun k hk =>
    inRegion_iff.2 (.inr (Path.below_of_beginsWith_elementStart hk))
  rw [List.filter_eq_self.2 fun x hx => beginsWith_of_parts h hx] at hsub
  exact hsub

/-! ## Keys of elements -/

/-- A leaf is written as one pair. -/
theorem map_fst_of_leaf {path : String} {ys : List (String × Bytes)} (hne : ys ≠ [])
    (ht : Tidy ys) (hp : ∀ y ∈ ys, y.1 = path) : ys.map Prod.fst = [path] := by
  match ys, hne with
  | [y], _ => rw [List.map_singleton, hp y List.mem_cons_self]
  | y :: z :: ys, _ =>
    have := ht.distinct
    rw [List.map_cons, List.map_cons, hp y List.mem_cons_self,
      hp z (List.mem_cons_of_mem _ List.mem_cons_self), List.nodup_cons] at this
    exact absurd List.mem_cons_self this.1

theorem map_fst_leaf_parts (hl : Read.isLeaf type reference = true)
    (h : ElementParts type reference base texts parts) :
    parts.flatten.map Prod.fst = texts.map (Path.element base) := by
  induction h with
  | nil => rfl
  | cons hy _ ih =>
    rw [List.flatten_cons, List.map_append, ih, List.map_cons,
      map_fst_of_leaf hy.1 hy.2.1 fun y hm => by simpa [covers, hl] using hy.2.2 y hm]
    rfl

/-- The paths of nested elements: each once, in the order in which they were written. -/
theorem eraseDups_nested_parts (hl : Read.isLeaf type reference = false)
    (hd : Telling type reference texts) (h : ElementParts type reference base texts parts) :
    (parts.flatten.filterMap (Path.elementPath? ·.1 (Path.elementStart base))).eraseDups =
      texts.map (Path.element base) := by
  induction h with
  | nil => rfl
  | @cons text ys texts parts hy hrest ih =>
    have hpath : ∀ {s : String} {zs : List (String × Bytes)}, ']' ∉ s.toList →
        (∀ x ∈ zs, covers type reference (Path.element base s) x.1 = true) →
        zs.filterMap (Path.elementPath? ·.1 (Path.elementStart base)) =
          List.replicate zs.length (Path.element base s) := by
      intro s zs hs hz
      induction zs with
      | nil => rfl
      | cons z zs ih =>
        rw [List.filterMap_cons, Path.elementPath?_of_within hs
          (within_of_covers (hz z List.mem_cons_self)), ih fun x hx =>
            hz x (List.mem_cons_of_mem _ hx)]
        rfl
    have hb := hd.no_bracket hl
    have hd' : Telling type reference texts := ⟨(List.nodup_cons.1 hd.distinct).2,
      fun hl t ht => hd.no_bracket hl t (List.mem_cons_of_mem _ ht)⟩
    obtain ⟨n, hn⟩ : ∃ n, ys.length = n + 1 :=
      Nat.exists_eq_succ_of_ne_zero fun h0 => hy.1 (List.length_eq_zero_iff.1 h0)
    rw [List.flatten_cons, List.filterMap_append, hpath (hb _ List.mem_cons_self) hy.2.2, hn,
      List.replicate_succ, List.cons_append, List.eraseDups_cons, List.filter_append,
      List.map_cons, ← ih hd']
    congr 2
    have hnot : ∀ p ∈ parts.flatten.filterMap (Path.elementPath? ·.1 (Path.elementStart base)),
        (!p == Path.element base text) = true := by
      intro p hp
      rw [← List.mem_eraseDups, ih hd', List.mem_map] at hp
      obtain ⟨t, ht, rfl⟩ := hp
      have hne : Path.element base t ≠ Path.element base text := fun h =>
        (List.nodup_cons.1 hd.distinct).1 (Path.element_injective base h ▸ ht)
      simpa using hne
    rw [List.filter_eq_self.2 hnot, List.filter_eq_nil_iff.2]
    · rfl
    · intro p hp
      simp [List.eq_of_mem_replicate hp]

/-- **Elements are read where they were written, in the same order.** -/
theorem elementKeys_of_parts (hd : Telling type reference texts)
    (h : ElementParts type reference base texts parts)
    (hh : Holds es (inRegion base) parts.flatten) :
    Read.elementKeys type reference es base = texts.map (Path.element base) := by
  rcases Read.isLeaf_or_nested type reference with hl | ⟨name, rfl, rfl⟩
  · rw [Read.elementKeys_of_isLeaf hl, below_of_parts h hh, map_fst_leaf_parts hl h]
  · rw [← eraseDups_nested_parts rfl hd h, ← below_of_parts h hh]
    show (es.toList.filterMap _).eraseDups = _
    rw [Entries.below, List.filterMap_filter]
    congr 1
    refine List.filterMap_congr fun e _ => ?_
    split
    · rfl
    · next hb =>
      cases hp : Path.elementPath? e.1 (Path.elementStart base) with
      | none => rfl
      | some p =>
        obtain ⟨text, rest, -, -, hk⟩ := Path.elementPath?_eq_some_iff.1 hp
        refine absurd ?_ hb
        rw [hk, Path.element_eq]
        simp only [String.append_assoc, Text.beginsWith_append]

/-! ## Owners of keys -/

theorem owner_of_covers {text key : String}
    (hb : Read.isLeaf type reference = false → ']' ∉ text.toList)
    (h : covers type reference (Path.element base text) key = true) :
    Read.owner type reference base key = some (Path.element base text) := by
  rcases Read.isLeaf_or_nested type reference with hl | ⟨name, rfl, rfl⟩
  · rw [(covers_leaf_iff hl).1 h, Read.owner_of_isLeaf hl,
      if_pos (Path.beginsWith_element base text)]
  · exact Path.elementPath?_of_within (hb rfl) ((covers_nested_iff rfl).1 h)

/-- Each key in the region of a path is that of an element with one of the key texts. -/
def Covered (es : Entries) (type : TypeRef) (reference : Bool) (path : String)
    (texts : List String) : Prop :=
  ∀ k, Within path k → es.get? k ≠ none →
    ∃ text ∈ texts, covers type reference (Path.element path text) k = true

section Covered

variable {bs : Entries} (hag : ∀ k, Below base k → bs.get? k = es.get? k)
  (hk : Covered es type reference base texts)

include hag hk

theorem mem_of_mem_elementKeys
    (hb : Read.isLeaf type reference = false → ∀ text ∈ texts, ']' ∉ text.toList) {q : String}
    (hq : q ∈ Read.elementKeys type reference bs base) : q ∈ texts.map (Path.element base) := by
  obtain ⟨k, hne, ho⟩ := Read.mem_elementKeys_iff.1 hq
  have hbelow := Read.below_of_owner ho
  rw [hag k hbelow] at hne
  obtain ⟨text, ht, hc⟩ := hk k hbelow.within hne
  have := owner_of_covers (fun hl => hb hl text ht) hc
  exact List.mem_map.2 ⟨text, ht, Option.some.inj (this.symm.trans ho)⟩

/-- If there are as many elements as key texts, each key text is that of an element. -/
theorem elementKeys_perm_of_length
    (hb : Read.isLeaf type reference = false → ∀ text ∈ texts, ']' ∉ text.toList)
    (hlen : texts.length ≤ (Read.elementKeys type reference bs base).length) :
    (Read.elementKeys type reference bs base).Perm (texts.map (Path.element base)) := by
  have hsub : Read.elementKeys type reference bs base ⊆ texts.map (Path.element base) :=
    fun q hq => mem_of_mem_elementKeys hag hk hb hq
  refine (List.subperm_of_subset (Read.elementKeys_nodup type) hsub).perm_of_length_le ?_
  rwa [List.length_map]

/-- If something is stored for each key text, the elements are those with the key texts. -/
theorem elementKeys_perm_of_telling (ht : Telling type reference texts)
    (hf : ∀ text ∈ texts, ∃ k, covers type reference (Path.element base text) k = true ∧
      es.get? k ≠ none) :
    (Read.elementKeys type reference bs base).Perm (texts.map (Path.element base)) := by
  rw [List.perm_ext_iff_of_nodup (Read.elementKeys_nodup type)
    (ht.distinct.map (Path.element_injective base))]
  refine fun q => ⟨mem_of_mem_elementKeys hag hk ht.no_bracket, fun hq => ?_⟩
  obtain ⟨text, htext, rfl⟩ := List.mem_map.1 hq
  obtain ⟨k, hc, hne⟩ := hf text htext
  have ho := owner_of_covers (fun hl => ht.no_bracket hl text htext) hc
  rw [← hag k (Read.below_of_owner ho)] at hne
  exact Read.mem_elementKeys_iff.2 ⟨k, hne, ho⟩

end Covered

/-! ## Places -/

/-- The key text of the element with an index. -/
def indexText (i : Nat) : String := .ofList (Number.natText i)

theorem indexText_injective : Function.Injective indexText := fun _ _ h =>
  Number.natText_injective (String.ofList_inj.1 h)

theorem indexText_ne_empty (i : Nat) : indexText i ≠ "" := fun h =>
  (Number.isDigits_natText i).1 (String.ofList_inj.1 (h.trans String.ofList_nil.symm))

theorem no_bracket_indexText (i : Nat) : ']' ∉ (indexText i).toList := by
  rw [indexText, String.toList_ofList]
  exact Number.not_mem_natText (by decide) i

theorem place_element (base : String) (i : Nat) :
    Read.place (Path.element base (indexText i)) (Path.elementStart base) =
      min i Number.greatestWord := by
  unfold Read.place
  rw [Path.elementKey?_element (no_bracket_indexText i)]
  simp only [Option.bind_eq_bind, Option.bind_some, indexText, String.toList_ofList,
    Number.readNat_natText]
  split
  · next h => rw [Option.getD_some, min_eq_left h]
  · next h => rw [Option.getD_none, min_eq_right (Nat.le_of_not_le h)]

/-- The key texts of a list of `n` items. -/
def indexTexts (n : Nat) : List String := (List.range n).map indexText

@[simp] theorem length_indexTexts (n : Nat) : (indexTexts n).length = n := by simp [indexTexts]

theorem telling_indexTexts_range (n : Nat) : Telling type reference (indexTexts n) := by
  refine ⟨List.nodup_range.map indexText_injective, fun _ text ht => ?_⟩
  obtain ⟨i, -, rfl⟩ := List.mem_map.1 ht
  exact no_bracket_indexText i

/-- The places of the items of a list are their indexes. -/
theorem map_place_indexTexts {n : Nat} (h : n ≤ Number.greatestWord) :
    ((indexTexts n).map (Path.element base)).map (Read.place · (Path.elementStart base)) =
      List.range n := by
  rw [indexTexts, List.map_map, List.map_map]
  refine (List.map_congr_left fun i hi => ?_).trans (List.map_id _)
  have := List.mem_range.1 hi
  rw [Function.comp_apply, Function.comp_apply, place_element, min_eq_left (by omega)]
  rfl

theorem telling_indexTexts (items : List Value) (i : Nat) :
    Telling type reference ((items.zipIdx i).map fun v => indexText v.2) := by
  refine ⟨?_, fun _ text ht => ?_⟩
  · have : ((items.zipIdx i).map Prod.snd).map indexText = (items.zipIdx i).map fun v =>
        indexText v.2 := List.map_map
    rw [← this, List.zipIdx_map_snd]
    exact (List.nodup_range' 1).map indexText_injective
  · obtain ⟨v, -, rfl⟩ := List.mem_map.1 ht
    exact no_bracket_indexText _

end FlatGraph
