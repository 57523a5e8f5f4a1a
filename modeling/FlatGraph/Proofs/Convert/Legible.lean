import FlatGraph.Proofs.Convert.Conforming
import FlatGraph.Proofs.Convert.Parts
import FlatGraph.Proofs.Convert.Rewrite
import FlatGraph.Proofs.Convert.RoundTrip
import FlatGraph.Proofs.Scalar.Admit

/-!
# What was written can be read

**The record of a legible object is read without error, as an object of the same type**
(`read_of_write`), although not always as the same object. An object is legible if it has no
references and its ids, its dates and the keys of its maps keep to what a reader expects
(`Legible`); the writer sees to everything else.

What is left for a value is what the record holds in the region of its path (`Renews`). So each
leaf is found as it was written, each object with its type hint, and each element of a list or a
map at the path of one that was written. The proof goes from the parts of a value to the whole
(`PartOf.wellFounded`).

None of the conditions on ids, dates and keys can be left out (`unreadable_all`): where the text of
a key closes its own bracket, for one, the rest of it is taken for a path.
-/

namespace FlatGraph

open FlatGraph.Path (Below Within)
open Rewrite (ElementsLeave indexed keyed)
open Write (Leaves LeavesAt)

variable {r : Registry}

/-! ## Legible objects -/

/-- The enumerations that a registry declares for values and for keys keep a rule. -/
def Registry.EachEnum (r : Registry) (rule : EnumType → Prop) : Prop :=
  ∀ name t, r.find? name = some t → ∀ p ∈ t.properties, ∀ e,
    p.shape.type = .scalar (.enum e) ∨ p.keyType? = some (.enum e) → rule e

/-- The texts of the keys have no closing brackets, and differ unless they are empty: an entry with
an empty key text is not read anyway. -/
structure ScalarType.Tells (key : ScalarType) (ks : List Value) : Prop where
  no_bracket : ∀ k ∈ ks, ∀ text, key.keyText k = .ok text → ']' ∉ text.toList
  distinct : ks.Pairwise fun k l => ∀ text, key.keyText k = .ok text → key.keyText l = .ok text →
    text = ""

/-- What is written for a value can be read: it has no references, its ids are written as texts
that their types can read, the milliseconds of its dates are in range, and the keys of its maps of
objects tell the entries apart. -/
structure Legible (r : Registry) (whole : Role × Value) : Prop where
  no_reference : ∀ p v, Occurs r (.property p, v) whole → p.isReference = false
  id : ∀ p type v text, Occurs r (.property p, v) whole → p.isId = true →
    p.shape = .single (.scalar type) → v.toText = .ok text →
      ∃ w?, type.decode (Utf8.encode text) = .ok w?
  date : ∀ t, Occurs r (.element (.scalar .date), .date t) whole → t.InRange
  keys : ∀ p key name entries, Occurs r (.property p, .map entries) whole →
    p.shape = .map key (.entity name) → key.Tells (entries.map Prod.fst)

/-- The parts of a legible value are legible. -/
theorem Legible.of_partOf {part whole : Role × Value} (h : Legible r whole)
    (hp : PartOf r part whole) : Legible r part where
  no_reference p v ho := h.no_reference p v (ho.tail hp)
  id p type v text ho := h.id p type v text (ho.tail hp)
  date t ho := h.date t (ho.tail hp)
  keys p key name entries ho := h.keys p key name entries (ho.tail hp)

/-- A value is legible if its parts are, and nothing is wrong with itself. -/
theorem Legible.of_parts {whole : Role × Value}
    (h : ∀ part, PartOf r part whole → Legible r part)
    (hr : ∀ p v, (.property p, v) = whole → p.isReference = false)
    (hid : ∀ p type v text, (.property p, v) = whole → p.isId = true →
      p.shape = .single (.scalar type) → v.toText = .ok text →
        ∃ w?, type.decode (Utf8.encode text) = .ok w?)
    (hd : ∀ t, (.element (.scalar .date), .date t) = whole → t.InRange)
    (hk : ∀ p key name entries, (.property p, .map entries) = whole →
      p.shape = .map key (.entity name) → key.Tells (entries.map Prod.fst)) : Legible r whole := by
  have hcases : ∀ part, Occurs r part whole →
      part = whole ∨ ∃ next, Legible r next ∧ Occurs r part next := fun part ho =>
    ho.cases_tail.imp Eq.symm fun ⟨next, hn, hp⟩ => ⟨next, h next hp, hn⟩
  refine ⟨fun p v ho => ?_, fun p type v text ho => ?_, fun t ho => ?_,
    fun p key name entries ho => ?_⟩
  · exact (hcases _ ho).elim (hr p v) fun ⟨_, hl, hn⟩ => hl.no_reference p v hn
  · exact (hcases _ ho).elim (hid p type v text) fun ⟨_, hl, hn⟩ => hl.id p type v text hn
  · exact (hcases _ ho).elim (hd t) fun ⟨_, hl, hn⟩ => hl.date t hn
  · exact (hcases _ ho).elim (hk p key name entries) fun ⟨_, hl, hn⟩ =>
      hl.keys p key name entries hn

theorem Legible.scalar {type : ScalarType} {v : Value}
    (h : ∀ t, type = .date → v = .date t → t.InRange) : Legible r (.element (.scalar type), v) :=
  .of_parts (fun _ hp => nomatch hp) (fun _ _ h => nomatch h) (fun _ _ _ _ h => nomatch h)
    (by rintro t ⟨⟩; exact h t rfl rfl) (fun _ _ _ _ h => nomatch h)

theorem Legible.object {declared type : String} {fields : List (String × Value)} {t : EntityType}
    (ht : r.find? type = some t) (h : ∀ p ∈ t.properties, ∀ v,
      Fields.get? fields p.name = some v → Legible r (.property p, v)) :
    Legible r (.element (.entity declared), .object type fields) := by
  refine .of_parts (fun part hpart => ?_) (fun _ _ h => nomatch h) (fun _ _ _ _ h => nomatch h)
    (fun _ h => nomatch h) (fun _ _ _ _ h => nomatch h)
  cases hpart with
  | field ht' hp hv =>
    cases ht.symm.trans ht'
    exact h _ hp _ hv

theorem Legible.property {p : Property} {v : Value} (hr : p.isReference = false)
    (hid : p.isId = true → ∀ type text, p.shape = .single (.scalar type) → v.toText = .ok text →
      ∃ w?, type.decode (Utf8.encode text) = .ok w?)
    (hk : ∀ key name entries, v = .map entries → p.shape = .map key (.entity name) →
      key.Tells (entries.map Prod.fst))
    (h : ∀ part, PartOf r part (.property p, v) → Legible r part) : Legible r (.property p, v) :=
  .of_parts h (by rintro _ _ ⟨⟩; exact hr)
    (by rintro _ type _ text ⟨⟩ hi hs ht; exact hid hi type text hs ht) (fun _ h => nomatch h)
    (by rintro _ key name entries ⟨⟩ hs; exact hk key name entries rfl hs)

/-! ## Keys -/

section Keys

variable {key : ScalarType} {entries : List (Value × Value)}
  (htexts : ∀ e ∈ entries, ∃ text, key.keyText e.1 = .ok text)

include htexts

theorem exists_of_mem_keyed {a : String × Value} (ha : a ∈ keyed key entries) :
    ∃ e ∈ entries, key.keyText e.1 = .ok a.1 ∧ e.2 = a.2 := by
  obtain ⟨e, he, rfl⟩ := List.mem_map.1 ha
  obtain ⟨text, ht⟩ := htexts e he
  exact ⟨e, he, by rw [ht]; rfl, rfl⟩

/-- Keys that tell entries apart do so by the texts that are written. -/
theorem ScalarType.Tells.keyed (h : key.Tells (entries.map Prod.fst)) :
    (∀ a ∈ keyed key entries, ']' ∉ a.1.toList) ∧
      (keyed key entries).Pairwise fun a b => a.1 = b.1 → a.1 = "" := by
  refine ⟨fun a ha => ?_, List.pairwise_map.2 ((List.pairwise_map.1 h.distinct).imp_of_mem ?_)⟩
  · obtain ⟨e, he, ht, -⟩ := exists_of_mem_keyed htexts ha
    exact h.no_bracket _ (List.mem_map_of_mem he) _ ht
  · intro e f he hf hef heq
    obtain ⟨s, hs⟩ := htexts e he
    obtain ⟨t, ht⟩ := htexts f hf
    simp only [hs, ht] at heq ⊢
    cases (show s = t from heq)
    exact hef s hs ht

end Keys

namespace Legible

variable {resolve : Resolver} {es bs : Entries} {path : String} {type : TypeRef}
  {reference root : Bool} {p : Property} {v : Value} {depth : Nat}

/-! ## Elements -/

theorem leaves_unique {w : Walk Unit} {xs ys : List (String × Bytes)} (hx : Leaves w xs)
    (hy : Leaves w ys) : xs = ys := hx.2.symm.trans hy.2

section Elements

variable {as : List (String × Value)}
  (h : Renews (ElementsLeave r path type reference as) es (inRegion path))
  (hag : ∀ k, Below path k → bs.get? k = es.get? k)

include h hag

/-- A leaf that is read among elements was written for one of them. -/
theorem exists_leaf (hl : Read.isLeaf type reference = true) {q : String}
    (hq : q ∈ Read.elementKeys type reference bs path) :
    ∃ a ∈ as, q = Path.element path a.1 ∧
      Renews (Leaves (Write.element r q type reference a.2)) es (covers type reference q) := by
  obtain ⟨k, hne, ho⟩ := Read.mem_elementKeys_iff.1 hq
  have hbelow := Read.below_of_owner ho
  rw [Read.owner_of_isLeaf hl] at ho
  split_ifs at ho
  cases ho
  rw [hag q hbelow] at hne
  obtain ⟨raw, hraw⟩ := Option.ne_none_iff_exists'.1 hne
  obtain ⟨_, ⟨parts, hparts, rfl⟩, hagrees⟩ := h
  have hlast := hagrees q (inRegion_iff.2 hbelow.within)
  rw [hraw] at hlast
  obtain ⟨ys, hys, hmem⟩ := List.mem_flatten.1 (Entries.mem_of_lastOf hlast)
  obtain ⟨a, ha, hy⟩ := Lists.exists_left_of_mem hparts hys
  have hnull : a.2.isNull = false := by
    by_contra hnull
    rw [Bool.not_eq_false] at hnull
    rw [Value.eq_null_of_isNull hnull] at hy
    rw [Write.leaves_element_null_iff.1 hy] at hmem
    cases hmem
  obtain ⟨raw', rfl⟩ := Rewrite.leaves_leaf hl hnull hy
  cases List.mem_singleton.1 hmem
  refine ⟨a, ha, rfl, _, hy, (Rewrite.agrees_singleton_iff hraw ((covers_leaf_iff hl).2 rfl)).2
    ⟨rfl, fun k hk _ => (covers_leaf_iff hl).1 hk⟩⟩

/-- An object that is read among elements was written for the one element with its key text. -/
theorem exists_nested (hl : Read.isLeaf type reference = false)
    (hb : ∀ a ∈ as, ']' ∉ a.1.toList) (hd : as.Pairwise fun a b => a.1 = b.1 → a.1 = "")
    {q : String} (hq : q ∈ Read.elementKeys type reference bs path) :
    ∃ a ∈ as, q = Path.element path a.1 ∧ (a.1 ≠ "" →
      Renews (Leaves (Write.element r q type reference a.2)) es (covers type reference q)) := by
  have hq := mem_of_mem_elementKeys hag (Rewrite.covered_of_renews h)
    (fun _ text ht => by
      obtain ⟨a, ha, rfl⟩ := List.mem_map.1 ht
      exact hb a ha) hq
  obtain ⟨text, ht, rfl⟩ := List.mem_map.1 hq
  obtain ⟨a, ha, rfl⟩ := List.mem_map.1 ht
  refine ⟨a, ha, rfl, fun hne => ?_⟩
  have hsymm : Std.Symm fun a b : String × Value => a.1 = b.1 → a.1 = "" :=
    ⟨fun a b h hba => hba.trans (h hba.symm)⟩
  have hwithin : ∀ b ∈ as, ∀ k,
      covers type reference (Path.element path b.1) k = true → Within (Path.element path b.1) k :=
    fun b _ k => (covers_nested_iff hl).1
  have hin : ∀ b ∈ as, ∀ ys,
      Leaves (Write.element r (Path.element path b.1) type reference b.2) ys →
        ∀ x ∈ ys, covers type reference (Path.element path b.1) x.1 = true :=
    fun b _ ys => Rewrite.covers_of_leaves (Path.element_ne_empty _ _)
  have hapart : ∀ b ∈ as, b ≠ a → ∀ k, covers type reference (Path.element path a.1) k = true →
      covers type reference (Path.element path b.1) k = false := fun b hb' hba k hk => by
    rw [← Bool.not_eq_true]
    intro hk'
    have heq := Path.element_inj_of_within (hb a ha) (hb b hb') (hwithin a ha k hk)
      (hwithin b hb' k hk')
    exact hne (hd.forall ha hb' (Ne.symm hba) heq)
  have houter : ∀ k, covers type reference (Path.element path a.1) k = true →
      inRegion path k = true := fun k hk =>
    inRegion_iff.2 ((Path.below_element _ _).trans_within (hwithin a ha k hk)).within
  exact @Renews.part _ _ _ _ _
    (fun b : String × Value => Leaves (Write.element r (Path.element path b.1) type reference b.2))
    a
    (fun _ _ => leaves_unique) hin ha hapart houter h

end Elements

/-! ## Values -/

/-- The enumerations of a declared type have no white space around their variants. -/
def Neat (type : TypeRef) : Prop := ∀ e, type = .scalar (.enum e) → e.Trimmed

/-- A scalar is read where it was written. -/
theorem decode_of_renews {type : ScalarType} (hv : Legible r (.element (.scalar type), v))
    (he : Neat (.scalar type)) (hag : bs.get? path = es.get? path)
    (h : Renews (Leaves (Write.element r path (.scalar type) false v)) es
      (covers (.scalar type) false path)) :
    ∃ w?, (Read.valueAt resolve (Read.object r resolve depth) (.scalar type) false bs
      path).outcome = .ok w? := by
  simp only [Read.valueAt_scalar_eq_ok_iff, hag]
  cases hraw : es.get? path with
  | none => exact ⟨none, rfl⟩
  | some raw =>
    obtain ⟨xs, hl, hagrees⟩ := h
    have hlast := hagrees path ((covers_leaf_iff rfl).2 rfl)
    rw [hraw] at hlast
    have hmem := Entries.mem_of_lastOf hlast
    by_cases hnull : v.isNull = true
    · rw [Value.eq_null_of_isNull hnull] at hl
      rw [Write.leaves_element_null_iff.1 hl] at hmem
      cases hmem
    · obtain ⟨raw', hencode, rfl⟩ := (Write.leaves_element_scalar_iff (by simpa using hnull)).1 hl
      cases List.mem_singleton.1 hmem
      refine ScalarType.exists_decode_of_encode (fun e hte => he e (hte ▸ rfl)) ?_
        (Write.encode_eq_ok_iff.1 hencode)
      rintro t rfl rfl
      exact hv.date t .refl

/-- What is left for a value in its role is read, wherever that is. -/
def Reads (r : Registry) (resolve : Resolver) (es : Entries) : Role × Value → Prop
  | (.element type, v) => Neat type → ∀ path depth bs, path ≠ "" →
      es.longestKey < path.length + depth → (∀ k, Within path k → bs.get? k = es.get? k) →
      Renews (Leaves (Write.element r path type false v)) es (covers type false path) →
      ∃ w?, (Read.valueAt resolve (Read.object r resolve depth) type false bs path).outcome = .ok w?
  | (.property p, v) => (∃ name t, r.find? name = some t ∧ p ∈ t.properties) →
      ∀ root path depth bs, path ≠ "" →
      es.longestKey < path.length + depth → (∀ k, Within path k → bs.get? k = es.get? k) →
      Renews (Leaves (Write.property r root path p v)) es (inRegion path) →
      ∃ w?, (Read.property resolve (Read.object r resolve depth) path p bs).outcome = .ok w?

/-- If all parts of an element are read, each element that is found is. -/
theorem exists_valueAt {as : List (String × Value)} (hneat : Neat type)
    (hread : ∀ a ∈ as, Reads r resolve es (.element type, a.2))
    (htell : Read.isLeaf type false = false →
      (∀ a ∈ as, ']' ∉ a.1.toList) ∧ as.Pairwise fun a b => a.1 = b.1 → a.1 = "")
    (hlen : es.longestKey < path.length + depth)
    (hag : ∀ k, Within path k → bs.get? k = es.get? k)
    (h : Renews (ElementsLeave r path type false as) es (inRegion path)) {q : String}
    (hq : q ∈ Read.elementKeys type false bs path) :
    ∃ a ∈ as, q = Path.element path a.1 ∧ (a.1 ≠ "" → ∃ w?,
      (Read.valueAt resolve (Read.object r resolve depth) type false bs q).outcome = .ok w?) := by
  have hbelow : ∀ k, Below path k → bs.get? k = es.get? k := fun k hk => hag k hk.within
  obtain ⟨a, ha, rfl, hrenews⟩ : ∃ a ∈ as, q = Path.element path a.1 ∧ (a.1 ≠ "" →
      Renews (Leaves (Write.element r q type false a.2)) es (covers type false q)) := by
    cases hl : Read.isLeaf type false with
    | true =>
      obtain ⟨a, ha, hqa, hrenews⟩ := exists_leaf h hbelow hl hq
      exact ⟨a, ha, hqa, fun _ => hrenews⟩
    | false => exact exists_nested h hbelow hl (htell hl).1 (htell hl).2 hq
  refine ⟨a, ha, rfl, fun hne => hread a ha hneat _ _ _ (Path.element_ne_empty _ _) ?_
    (fun k hk => hbelow k ((Path.below_element _ _).trans_within hk)) (hrenews hne)⟩
  have := (Path.below_element path a.1).length_lt
  omega

/-! ## Properties -/

/-- An entry is read if its key is, and its value where the key text is not empty. -/
theorem exists_entryValue {key : ScalarType} {text : String} {value : Reading (Option Value)}
    (hk : ∃ k?, key.decode (Utf8.encode text) = .ok k?)
    (hv : text ≠ "" → ∃ w?, value.outcome = .ok w?) :
    ∃ y, (Read.entryValue path (some text) key value).outcome = .ok y := by
  obtain ⟨_ | k, hk⟩ := hk
  · refine ⟨none, Read.entryValue_eq_ok_iff.2 (.inl ⟨fun _ ht => ?_, rfl⟩)⟩
    cases ht
    exact hk
  · obtain ⟨w, hw⟩ := hv fun h => ScalarType.ne_nil_of_decode hk (by rw [h, Utf8.encode_empty])
    exact ⟨_, Read.entryValue_eq_ok_iff.2 (.inr ⟨_, k, w, rfl, hk, hw, rfl⟩)⟩

section Property

variable (hv : Legible r (.property p, v)) (hp : EntityType.propertyViolation? p = none)
  (hneat : ∀ e, p.shape.type = .scalar (.enum e) ∨ p.keyType? = some (.enum e) → e.Trimmed)
  (hpath : path ≠ "") (hlen : es.longestKey < path.length + depth)
  (hag : ∀ k, Within path k → bs.get? k = es.get? k)
  (h : Renews (Leaves (Write.property r root path p v)) es (inRegion path))
  (ih : ∀ part, PartOf r part (.property p, v) → Reads r resolve es part)

include hv hag h

/-- An id is read by its declared type, which can read the text that was written. -/
theorem exists_property_id (hid : p.isId = true) {key : ScalarType}
    (hs : p.shape = .single (.scalar key)) : ∃ w?,
      (Read.property resolve (Read.object r resolve depth) path p bs).outcome = .ok w? := by
  simp only [Read.property_single hs, Read.valueAt_scalar_eq_ok_iff, hag path (.self path)]
  cases hraw : es.get? path with
  | none => exact ⟨none, rfl⟩
  | some raw =>
    obtain ⟨xs, hl, hagrees⟩ := h
    obtain ⟨text, htext, rfl⟩ := (Write.leaves_property_of_isId hid).1 hl
    have hlast := hagrees path (inRegion_iff.2 (.self path))
    rw [hraw] at hlast
    cases List.mem_singleton.1 (Entries.mem_of_lastOf hlast)
    exact hv.id p key v text .refl hid hs (Write.idText_eq_ok_iff.1 htext).2

include hneat hlen ih

theorem exists_property_single (hpath : path ≠ "") (hid : p.isId = false) {type : TypeRef}
    (hs : p.shape = .single type) : ∃ w?,
      (Read.property resolve (Read.object r resolve depth) path p bs).outcome = .ok w? := by
  have hr := hv.no_reference p v .refl
  rw [Renews.congr fun xs => Write.leaves_property_single_iff hid hs, hr,
    Rewrite.renews_outer_iff (fun xs => Rewrite.covers_of_leaves hpath) fun k hk =>
      inRegion_iff.2 (within_of_covers hk)] at h
  rw [Read.property_single hs, hr]
  exact ih _ (.single hid hr hs) (fun e he => hneat e (.inl (by rw [hs]; exact he))) path depth bs
    hpath hlen hag h.2

theorem exists_property_list (hid : p.isId = false) {type : TypeRef} (hs : p.shape = .list type) :
    ∃ w?, (Read.property resolve (Read.object r resolve depth) path p bs).outcome = .ok w? := by
  have hr := hv.no_reference p v .refl
  obtain ⟨items, rfl⟩ : ∃ items, v = .list items := by
    obtain ⟨xs, hl, -⟩ := h
    obtain ⟨items, rfl, -⟩ := (Write.leaves_property_list_iff hid hs).1 hl
    exact ⟨items, rfl⟩
  rw [Renews.congr fun xs => Rewrite.leaves_list_iff hid hs, hr] at h
  have hvalue : ∀ q ∈ Read.elementKeys type p.isReference bs path, ∃ y w,
      (Read.valueAt resolve (Read.object r resolve depth) type p.isReference bs q).outcome = .ok w ∧
        y = w.map (Read.place q (Path.elementStart path), ·) := by
    rw [hr]
    intro q hq
    have htell : Telling type false (indexTexts items.length) := telling_indexTexts_range _
    rw [← Rewrite.map_fst_indexed] at htell
    obtain ⟨a, ha, -, hw⟩ := exists_valueAt (fun e he => hneat e (.inl (by rw [hs]; exact he)))
      (fun a ha => ih _ (.item hid hr hs (by
        rw [← Rewrite.map_snd_indexed items]
        exact List.mem_map_of_mem ha)))
      (fun hl => ⟨fun a ha => htell.no_bracket hl _ (List.mem_map_of_mem ha),
        (List.pairwise_map.1 htell.distinct).imp fun hne heq => absurd heq hne⟩) hlen hag h hq
    obtain ⟨⟨item, i⟩, -, rfl⟩ := List.mem_map.1 ha
    obtain ⟨w, hw⟩ := hw (indexText_ne_empty i)
    exact ⟨_, w, hw, rfl⟩
  obtain ⟨found, hf⟩ := Lists.exists_forall₂ hvalue
  exact ⟨_, (Read.property_list_eq_ok_iff hs).2 ⟨found, hf, rfl⟩⟩

theorem exists_property_map (hid : p.isId = false) {key : ScalarType} {type : TypeRef}
    (hs : p.shape = .map key type) :
    ∃ w?, (Read.property resolve (Read.object r resolve depth) path p bs).outcome = .ok w? := by
  have hr := hv.no_reference p v .refl
  obtain ⟨entries, rfl⟩ : ∃ entries, v = .map entries := by
    obtain ⟨xs, hl, -⟩ := h
    obtain ⟨entries, rfl, -⟩ := (Write.leaves_property_map_iff hid hs).1 hl
    exact ⟨entries, rfl⟩
  rw [Renews.congr fun xs => Rewrite.leaves_map_iff hid hs, hr] at h
  obtain ⟨xs, ⟨htexts, hl⟩, hagrees⟩ := h
  have htell : Read.isLeaf type false = false → (∀ a ∈ keyed key entries, ']' ∉ a.1.toList) ∧
      (keyed key entries).Pairwise fun a b => a.1 = b.1 → a.1 = "" := fun hl => by
    obtain ⟨name, rfl, -⟩ := (Read.isLeaf_or_nested type false).resolve_left (by rw [hl]; decide)
    exact (hv.keys p key name entries .refl hs).keyed htexts
  have hentry : ∀ q ∈ Read.elementKeys type p.isReference bs path, ∃ y,
      (Read.entryValue q (Read.keyText type p.isReference (Path.elementStart path) q) key
        (Read.valueAt resolve (Read.object r resolve depth) type p.isReference bs q)).outcome =
          .ok y := by
    rw [hr]
    intro q hq
    obtain ⟨a, ha, rfl, hw⟩ := exists_valueAt (fun e he => hneat e (.inl (by rw [hs]; exact he)))
      (fun a ha => by
        obtain ⟨e, he, -, hv⟩ := exists_of_mem_keyed htexts ha
        exact hv ▸ ih _ (.value hid hr hs he)) htell hlen hag ⟨xs, hl, hagrees⟩ hq
    obtain ⟨e, he, ht, -⟩ := exists_of_mem_keyed htexts ha
    rw [Read.keyText_element fun hl => (htell hl).1 a ha]
    refine exists_entryValue (ScalarType.exists_decode_of_keyText
      (fun e hkey => hneat e (.inr (by rw [Property.keyType?, hs, hkey])))
      (fun t hkey hdate => hv.date t (.single ?_)) ht) hw
    rw [← hkey, ← hdate]
    exact .key hid hr hs he
  obtain ⟨found, hf⟩ := Lists.exists_forall₂ hentry
  exact ⟨_, (Read.property_map_eq_ok_iff hs).2 ⟨found, hf, rfl⟩⟩

include hp hpath

/-- A property is read if its parts are. -/
theorem exists_property : ∃ w?,
    (Read.property resolve (Read.object r resolve depth) path p bs).outcome = .ok w? := by
  by_cases hid : p.isId = true
  · have hsingle := ((EntityType.propertyViolation?_eq_none_iff.1 hp).1 hid).1
    obtain ⟨key, hs⟩ := Shape.isSingleScalar_iff.1 hsingle
    exact exists_property_id hv hag h hid hs
  · rw [Bool.not_eq_true] at hid
    cases hs : p.shape with
    | single type => exact exists_property_single hv hneat hlen hag h ih hpath hid hs
    | list type => exact exists_property_list hv hneat hlen hag h ih hid hs
    | map key type => exact exists_property_map hv hneat hlen hag h ih hid hs

end Property

/-! ## Objects -/

/-- An object is read if its type is found and each of its properties is read. -/
theorem exists_object {base declared : String} {t : EntityType}
    (ht : Read.resolveType r base declared bs = .ok t)
    (h : ∀ p ∈ t.properties, ∃ w?, (Read.property resolve (Read.object r resolve depth)
      (Path.join base p.name) p bs).outcome = .ok w?) :
    ∃ o, (Read.object r resolve (depth + 1) base declared bs).outcome = .ok o ∧
      o.type = t.name := by
  have hall : ∀ p ∈ Read.order t, ∃ f : String × Option Value, f.1 = p.name ∧
      (Read.property resolve (Read.object r resolve depth) (Path.join base p.name) p bs).outcome =
        .ok f.2 := fun p hp => by
    obtain ⟨w?, hw⟩ := h p ((List.filter_append_perm _ _).mem_iff.1 hp)
    exact ⟨(p.name, w?), rfl, hw⟩
  obtain ⟨found, hf⟩ := Lists.exists_forall₂ hall
  exact ⟨_, Read.object_eq_ok_iff.2 ⟨t, found, ht, hf, rfl⟩, Read.assemble_type _ _⟩

/-- A field is read if its value is, and one that is not set is not found. -/
theorem exists_field {v? : Option Value} (hpath : path ≠ "")
    (hp : ∃ name t, r.find? name = some t ∧ p ∈ t.properties)
    (hlen : es.longestKey < path.length + depth) (hag : ∀ k, Within path k → bs.get? k = es.get? k)
    (hread : ∀ v, v? = some v → Reads r resolve es (.property p, v))
    (h : Renews (LeavesAt r root path p v?) es (inRegion path)) : ∃ w?,
    (Read.property resolve (Read.object r resolve depth) path p bs).outcome = .ok w? := by
  cases v? with
  | some v => exact hread v rfl hp root path depth bs hpath hlen hag h
  | none =>
    obtain ⟨_, rfl, hagrees⟩ := h
    refine ⟨none, Read.property_of_empty hpath fun k hk => ?_⟩
    rw [hag k hk]
    exact (hagrees k (inRegion_iff.2 hk)).symm

/-- The type hint that was written names the type. -/
theorem typeAt_of_hints {type declared : String} {t : EntityType} (hpath : path ≠ "")
    (htype : type ≠ "") (ht : r.find? type = some t)
    (ha : type = declared ∨ r.isAssignable type declared = true)
    (h : Entries.lastOf (Write.hints path type declared) (Path.hintOf path) =
      es.get? (Path.hintOf path)) : TypeAt r es path declared t := by
  unfold TypeAt
  rw [← h, Write.hints]
  by_cases hd : type = declared
  · rw [if_pos hd]
    exact hd ▸ ht
  · rw [if_neg hd, Entries.lastOf_singleton, if_pos ⟨rfl,
      Path.ne_empty_of_within hpath (Path.below_hintOf hpath).within,
      mt Utf8.encode_eq_nil_iff.1 htype⟩]
    exact ⟨type, Utf8.decode_encode type, ht, ha.resolve_left hd⟩

/-- A record with a key below a path is read with some depth left there. -/
theorem exists_depth {k : String} (hk : Below path k) (hne : es.get? k ≠ none)
    (hlen : es.longestKey < path.length + depth) : ∃ d, depth = d + 1 := by
  obtain ⟨raw, hraw⟩ := Option.ne_none_iff_exists'.1 hne
  have hkey : k.length ≤ es.longestKey := Entries.le_longestKey (Entries.get?_eq_some_iff.1 hraw)
  have := hk.length_lt
  exact ⟨depth - 1, by omega⟩

/-- Where the record has a key below the path of a value, the value is an object. -/
theorem exists_object_of_renews {declared : String} (hb : r.Built)
    (h : Renews (Leaves (Write.element r path (.entity declared) false v)) es
      (covers (.entity declared) false path)) {k : String} (hk : Below path k)
    (hne : es.get? k ≠ none) : ∃ t fields, v = .object t.name fields ∧
      r.find? t.name = some t ∧ (t.name = declared ∨ r.isAssignable t.name declared = true) := by
  obtain ⟨xs, hl, hagrees⟩ := h
  have hv : v.isNull = false := by
    by_contra hnull
    rw [Bool.not_eq_false] at hnull
    rw [Value.eq_null_of_isNull hnull] at hl
    rw [Write.leaves_element_null_iff.1 hl] at hagrees
    exact hne (hagrees k ((covers_nested_iff rfl).2 hk.within)).symm
  obtain ⟨type, fields, t, ys, rfl, ht, ha, -⟩ := (Write.leaves_nested_iff hv).1 hl
  obtain rfl : t.name = type := (hb.sound ht).1
  exact ⟨t, fields, rfl, ht, ha⟩

/-- An object inside another is read if its fields are. -/
theorem reads_nested {declared : String} (hb : r.Built) (hr : r.Named) (he : r.NoEmptyType)
    (ih : ∀ part, PartOf r part (.element (.entity declared), v) → Reads r resolve es part) :
    Reads r resolve es (.element (.entity declared), v) := by
  intro _ path depth bs hpath hlen hag h
  by_cases hempty : (bs.extract path).size = 0
  · exact ⟨none, Read.inner_eq_ok_iff.2 (by rw [if_pos hempty])⟩
  obtain ⟨k, hk, hne⟩ : ∃ k, Below path k ∧ es.get? k ≠ none := by
    rw [Entries.size_extract_eq_zero_iff hpath] at hempty
    push Not at hempty
    obtain ⟨k, hk, hne⟩ := hempty
    exact ⟨k, hk, by rwa [← hag k hk.within]⟩
  obtain ⟨depth, rfl⟩ := exists_depth hk hne hlen
  obtain ⟨t, fields, rfl, ht, ha⟩ := exists_object_of_renews hb h hk hne
  have hnames := hr.isName _ t ht
  have hbelow : ∀ p : Property, ∀ k, Within (Path.join path p.name) k → Below path k :=
    fun p k hk => (Path.below_join hpath p.name).trans_within hk
  have hleaves : ∀ xs, Leaves (Write.element r path (.entity declared) false
      (Object.toValue ⟨t.name, fields⟩)) xs ↔ ∃ ys, Leaves (Write.properties r false path fields
        t.properties) ys ∧ xs = Write.hints path t.name declared ++ ys := fun xs =>
    Rewrite.leaves_object_iff ht ha rfl
  obtain ⟨hhint, -, hfields⟩ := (renews_object_iff hnames (hr.distinct _ t ht)
    (fun x => Write.fst_of_mem_hints) ((covers_nested_iff rfl).2 (Path.below_hintOf hpath).within)
    fun p _ k hk => (covers_nested_iff rfl).2 (hbelow p k hk).within).1
      ((Renews.congr hleaves).1 h)
  have htype := (typeAt_iff (by rw [Entries.get?_extract_hint, hag _
    (Path.below_hintOf hpath).within])).1 (typeAt_of_hints hpath (he _ t ht) ht ha hhint)
  have hread : ∀ p ∈ t.properties, ∃ w?, (Read.property resolve (Read.object r resolve depth)
      (Path.join path p.name) p (bs.extract path)).outcome = .ok w? := fun p hm => by
    refine exists_field (Path.join_ne_empty_of_base hpath) ⟨_, t, ht, hm⟩ ?_ (fun k hk => ?_)
      (fun v hv => ih _ (.field ht hm hv)) (hfields p hm)
    · have := @Path.length_lt_join path _ (hnames p hm).ne_empty
      omega
    · rw [Entries.get?_extract_of_below (fun hkh => Path.not_within_join_hint (hnames p hm)
        (hkh ▸ hk)) (hbelow p k hk), hag k (hbelow p k hk).within]
  obtain ⟨o, ho, -⟩ := exists_object htype hread
  exact ⟨_, Read.inner_eq_ok_iff.2 (by rw [if_neg hempty]; exact ⟨o, ho, rfl⟩)⟩

/-- **What is legible is read wherever it was written.** -/
theorem reads (hb : r.Built) (hr : r.Named) (he : r.NoEmptyType)
    (ht : r.EachEnum EnumType.Trimmed) {whole : Role × Value} (h : Legible r whole) :
    Reads r resolve es whole := by
  have hwf : WellFounded (PartOf r) := PartOf.wellFounded
  induction whole using hwf.induction with
  | _ whole ih =>
    have hparts : ∀ part, PartOf r part whole → Reads r resolve es part := fun part hp =>
      ih part hp (h.of_partOf hp)
    match whole with
    | (.element (.scalar type), v) =>
      intro hneat path depth bs _ _ hag hrenews
      exact decode_of_renews h hneat (hag path (.self path)) hrenews
    | (.element (.entity declared), v) => exact reads_nested hb hr he hparts
    | (.property p, v) =>
      rintro ⟨name, t, hfind, hm⟩ root path depth bs hpath hlen hag hrenews
      exact exists_property h ((hb.sound hfind).2.property p hm) (ht name t hfind p hm) hpath hlen
        hag hrenews hparts

end Legible

/-- The scalars in a legible object are stored in a form that their types can read, as values and
as keys. -/
theorem decodes_of_occurs (ht : r.EachEnum EnumType.Trimmed) {o : Object}
    (ho : Legible r o.whole) (hw : Written r o.whole) {type : ScalarType} {v : Value}
    (h : Occurs r (.element (.scalar type), v) o.whole) :
    ∃ bs, type.encode v = .ok bs ∧ (∃ w?, type.decode bs = .ok w?) ∧
      ∃ w?, type.decode (Utf8.encode (Utf8.lossy bs)) = .ok w? := by
  obtain ⟨bs, hbs⟩ := written_scalar_iff.1 (written_of_occurs h hw)
  have he : ∀ e, type = .enum e → e.Trimmed := by
    rintro e rfl
    rcases h.cases_head with heq | ⟨next, hp, hnext⟩
    · cases heq
    cases hp with
    | single _ _ hs | item _ _ hs _ | value _ _ hs _ =>
      obtain ⟨name, t, hfind, hm⟩ := registered_of_occurs hnext
      exact ht name t hfind _ hm e (.inl (by rw [hs]; rfl))
    | key _ _ hs _ =>
      obtain ⟨name, t, hfind, hm⟩ := registered_of_occurs hnext
      exact ht name t hfind _ hm e (.inr (by rw [Property.keyType?, hs]))
  have hd : ∀ t, type = .date → v = .date t → t.InRange := by
    rintro t rfl rfl
    exact ho.date t h
  exact ⟨bs, hbs, ScalarType.exists_decode_of_encode he hd hbs,
    ScalarType.exists_decode_of_keyText he hd (Outcome.map_eq_ok_iff.2 ⟨bs, hbs, rfl⟩)⟩

/-- **What is written for a legible object can be read** as an object of the same type, whatever
indexes are defined and however references are resolved; and so can each scalar in it. -/
theorem read_of_write {r : Registry} (hb : r.Built) (hr : r.Named) (he : r.NoEmptyType)
    (ht : r.EachEnum EnumType.Trimmed) {ix : Indexes} {o : Object} (ho : Legible r o.whole)
    {record : Record} (h : (r.write ix o).1 = .ok record) (resolve : Resolver) :
    (∃ o', (r.read resolve o.type record.entries).outcome = .ok (some o') ∧ o'.type = o.type) ∧
      ∀ (type : ScalarType) (v : Value), Occurs r (.element (.scalar type), v) o.whole →
        ∃ bs, type.encode v = .ok bs ∧ (∃ w?, type.decode bs = .ok w?) ∧
          ∃ w?, type.decode (Utf8.encode (Utf8.lossy bs)) = .ok w? := by
  refine ⟨?_, fun type v => decodes_of_occurs ht ho (written_of_write h)⟩
  obtain ⟨t, xs, hfind, hl, hes⟩ := Write.write_entries_iff.1 ⟨record, h, rfl⟩
  have hnames := hr.isName _ t hfind
  have hrenews : Renews (fun xs => ∃ ys, Leaves (Write.properties r true "" o.fields
      t.properties) ys ∧ xs = [(Path.hint, Utf8.encode o.type)] ++ ys) record.entries
      fun _ => true := by
    refine ⟨xs, Write.leaves_outline_iff.1 hl, fun k _ => ?_⟩
    rw [hes, Entries.get?_putAll, Entries.get?_empty, Option.or_none]
  rw [renews_object_iff hnames (hr.distinct _ t hfind) (by simp) rfl fun _ _ _ _ => rfl] at hrenews
  obtain ⟨hhint, -, hfields⟩ := hrenews
  rw [Path.hintOf_empty, Entries.lastOf_singleton, if_pos ⟨rfl, by decide,
    mt Utf8.encode_eq_nil_iff.1 (he _ t hfind)⟩] at hhint
  have htype : Read.resolveType r "" o.type record.entries = .ok t :=
    (typeAt_iff (by rw [Path.hintOf_empty])).1 (by
      rw [TypeAt, Path.hintOf_empty, ← hhint]
      exact ⟨_, Utf8.decode_encode _, hfind, hb.isAssignable_self hfind⟩)
  have hproperty : ∀ p ∈ t.properties, ∃ w?, (Read.property resolve
      (Read.object r resolve (r.size + record.entries.longestKey + 1)) (Path.join "" p.name) p
      record.entries).outcome = .ok w? := fun p hm => by
    refine Legible.exists_field (Path.join_ne_empty (hnames p hm).ne_empty) ⟨_, t, hfind, hm⟩ ?_
      (fun _ _ => rfl) (fun v hv => Legible.reads hb hr he ht
        (ho.of_partOf (.field hfind hm hv))) (hfields p hm)
    omega
  obtain ⟨o', hread, hname⟩ := Legible.exists_object htype hproperty
  refine ⟨o', ?_, hname.trans (hb.sound hfind).1⟩
  exact Registry.read_eq_some_iff.2 ⟨Registry.size_ne_zero_of_write he h, hread⟩

/-! ## Stations that can be read, and others -/

namespace Network

theorem noEmptyType_network : network.NoEmptyType := .of_types (by decide)

/-- The sign of a terminal. -/
def numeral : Property := { sign with shape := .single (.scalar (.int .w32)) }

theorem mem_properties_of_network {name : String} {t : EntityType} {p : Property}
    (ht : network.find? name = some t) (hp : p ∈ t.properties) :
    p ∈ [number, sign, numeral, load, opened, tracks, lines] := by
  have htypes : ∀ e ∈ network.types, ∀ p ∈ e.2.properties,
      p ∈ [number, sign, numeral, load, opened, tracks, lines] := by decide
  exact htypes _ (Registry.mem_types_of_find? ht) p hp

theorem eachEnum_network {rule : EnumType → Prop} : network.EachEnum rule := by
  intro name t ht p hp e he
  have hp := mem_properties_of_network ht hp
  simp only [List.mem_cons, List.not_mem_nil, or_false] at hp
  rcases hp with rfl | rfl | rfl | rfl | rfl | rfl | rfl <;> rcases he with h | h <;> cases h

theorem isReference_of_network {name : String} {t : EntityType} {p : Property}
    (ht : network.find? name = some t) (hp : p ∈ t.properties) : p.isReference = false :=
  (show ∀ p ∈ [number, sign, numeral, load, opened, tracks, lines], p.isReference = false by
    decide) p (mem_properties_of_network ht hp)

/-- A station whose number is given as text, and one of whose tracks is missing. -/
def mixed : Object where
  type := "Station"
  fields := [("number", .text "7"), ("tracks", .list [.null, .integer 3]),
    ("lines", .map [(.text "a", .object "Terminal" [("sign", .integer 5)])])]

theorem decode_seven :
    (ScalarType.int .w32).decode (Utf8.encode "7") = .ok (some (.integer 7)) := by
  decide +kernel

theorem legible_mixed : Legible network mixed.whole := by
  have hterminal : Legible network (.element (.entity "Station"),
      .object "Terminal" [("sign", .integer 5)]) := by
    refine .object (t := terminal.extending station) rfl fun p hp v hv => ?_
    replace hp : p ∈ [number, numeral, load, opened, tracks, lines] := hp
    simp only [List.mem_cons, List.not_mem_nil, or_false] at hp
    rcases hp with rfl | rfl | rfl | rfl | rfl | rfl <;> cases hv
    refine .property rfl (fun h => nomatch h) (fun _ _ _ h => nomatch h) ?_
    rintro _ (_ | ⟨-, -, ⟨⟩⟩ | _ | _)
    exact .scalar fun _ h => nomatch h
  refine .object (t := station) rfl fun p hp v hv => ?_
  simp only [station, List.mem_cons, List.not_mem_nil, or_false] at hp
  rcases hp with rfl | rfl | rfl | rfl | rfl | rfl <;> cases hv
  · refine .property rfl ?_ (fun _ _ _ h => nomatch h) ?_
    · rintro - _ _ ⟨⟩ ⟨⟩
      exact ⟨some (.integer 7), decode_seven⟩
    · rintro _ (_ | ⟨⟨⟩⟩ | _ | _)
  · refine .property rfl (fun h => nomatch h) (fun _ _ _ h => nomatch h) ?_
    rintro _ (_ | ⟨-, -, ⟨⟩⟩ | ⟨-, -, ⟨⟩, -⟩ | _)
    exact .scalar fun _ h => nomatch h
  · refine .property rfl (fun h => nomatch h) ?_ ?_
    · rintro _ _ _ ⟨⟩ ⟨⟩
      refine ⟨?_, List.pairwise_singleton _ _⟩
      rintro k hk text ht
      cases List.mem_singleton.1 hk
      cases (keyText_text "a").symm.trans ht
      decide
    · rintro _ (_ | ⟨-, -, ⟨⟩⟩ | _ | ⟨-, -, ⟨⟩, he⟩ | ⟨-, -, ⟨⟩, he⟩)
      · exact .scalar fun _ h => nomatch h
      · rw [List.mem_singleton.1 he]
        exact hterminal

theorem written_mixed : ∃ record, (network.write {} mixed).1 = .ok record :=
  Outcome.exists_of_isOk (by decide +kernel)

/-- Text for a number, a missing track and a terminal among the stations do no harm. -/
theorem read_mixed : ∃ record o', (network.write {} mixed).1 = .ok record ∧
    (network.read .nothing "Station" record.entries).outcome = .ok (some o') ∧
      o'.type = "Station" := by
  obtain ⟨record, hw⟩ := written_mixed
  obtain ⟨⟨o', hread⟩, -⟩ := read_of_write built_network named_network noEmptyType_network
    eachEnum_network legible_mixed hw .nothing
  exact ⟨record, o', hw, hread⟩

/-- The key of a line closes its own bracket. -/
def bracketed : Object where
  type := "Station"
  fields := [("lines", .map [(.text "a].tracks.[0", .object "Station" [("sign", .text "x")])])]

/-- Two lines have the same key. -/
def doubled : Object where
  type := "Station"
  fields := [("lines", .map [(.text "a", .object "Station" [("sign", .text "x")]),
    (.text "a", .object "Terminal" [])])]

/-- The number is no number. -/
def misnumbered : Object where
  type := "Station"
  fields := [("number", .text "one")]

/-- The station opened in the leap second after all others. -/
def late : Object where
  type := "Station"
  fields := [("opened", .date ⟨Calendar.greatestSecond, 1000000000, by decide, by decide, by decide,
    by decide⟩)]

/-- Whether the object is written, but its record cannot be read. -/
def unreadable (o : Object) : Bool :=
  match (network.write {} o).1 with
  | .ok record => !(network.read .nothing o.type record.entries).outcome.toBool
  | .error _ => false

/-- None of the conditions on ids, dates and keys can be left out. -/
theorem unreadable_all : [bracketed, doubled, misnumbered, late].all unreadable = true := by
  decide +kernel

/-- Not everything that is written can be read. -/
theorem not_forall_read_of_write :
    ¬ ∀ (r : Registry), r.Built → r.Named → r.NoEmptyType →
      (r.EachEnum fun e => ∀ variant ∈ e.variants,
        variant ≠ "" ∧ Text.trim variant = variant ∧ ']' ∉ variant.toList) →
      ∀ (ix : Indexes) (resolve : Resolver) (o : Object) (record : Record),
        (∀ p v, Occurs r (.property p, v) o.whole → p.isReference = false) →
        (r.write ix o).1 = .ok record →
        ∃ o', (r.read resolve o.type record.entries).outcome = .ok (some o') ∧
          o'.type = o.type := by
  intro h
  have hno : unreadable bracketed = true := List.all_eq_true.1 unreadable_all _ List.mem_cons_self
  cases hw : (network.write {} bracketed).1 with
  | error e =>
    rw [unreadable, hw] at hno
    cases hno
  | ok record =>
    have hnoref : ∀ p v, Occurs network (.property p, v) bracketed.whole →
        p.isReference = false := fun p v ho => by
      obtain ⟨name, t, ht, hp⟩ := registered_of_occurs ho
      exact isReference_of_network ht hp
    obtain ⟨o', hread, -⟩ := h network built_network named_network noEmptyType_network
      eachEnum_network {} .nothing bracketed record hnoref hw
    simp [unreadable, hw, hread, Except.toBool] at hno

end Network

end FlatGraph
