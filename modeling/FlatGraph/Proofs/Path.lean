import FlatGraph.Path
import FlatGraph.Proofs.Text.Cut

/-!
# The regions of a record

What is stored for the value at a path lies in the *region* of the path: at the path itself, or
below it (`Below`), behind the path and a dot.

* The regions of two properties of one object are apart (`join_inj_of_within`), as names have no
  dots.
* The regions of two elements of one list or map are apart (`element_inj_of_within`), as long as
  their key texts have no closing brackets. Where elements are leaves, the brackets do not matter.
* A type hint lies in the region of no property (`not_within_join_hintOf`).

A reference is stored as a pointer. The texts that read as one are those made of a keyspace without
colons and an id, none of them empty (`splitPointer?_eq_some_iff`).
-/

namespace FlatGraph.Path

open Text (beginsWith beginsWith_iff after?_eq_some_iff cut?_eq_some_iff)

/-! ## Regions -/

/-- The key lies below the path. -/
def Below (path key : String) : Prop := ∃ rest, key = path ++ "." ++ rest

/-- The key lies in the region of the path. -/
def Within (path key : String) : Prop := key = path ∨ Below path key

theorem beginsWith_subtreeStart_iff {path key : String} :
    beginsWith (subtreeStart path) key = true ↔ Below path key := beginsWith_iff

instance (path key : String) : Decidable (Below path key) :=
  decidable_of_iff _ beginsWith_subtreeStart_iff

instance (path key : String) : Decidable (Within path key) :=
  inferInstanceAs (Decidable (_ ∨ _))

theorem Within.self (path : String) : Within path path := Or.inl rfl

theorem Below.within {path key : String} (h : Below path key) : Within path key := Or.inr h

theorem Below.length_lt {path key : String} (h : Below path key) : path.length < key.length := by
  obtain ⟨rest, rfl⟩ := h
  have : (".":String).length = 1 := rfl
  simp only [String.length_append]
  omega

theorem Below.trans {a b c : String} (h : Below a b) (h' : Below b c) : Below a c := by
  obtain ⟨s, rfl⟩ := h
  obtain ⟨t, rfl⟩ := h'
  exact ⟨s ++ "." ++ t, by simp only [String.append_assoc]⟩

theorem Below.trans_within {a b c : String} (h : Below a b) (h' : Within b c) : Below a c := by
  rcases h' with rfl | h'
  · exact h
  · exact h.trans h'

theorem Within.trans {a b c : String} (h : Within a b) (h' : Within b c) : Within a c := by
  rcases h with rfl | h
  · exact h'
  · exact (h.trans_within h').within

theorem ne_empty_of_within {path key : String} (hp : path ≠ "") (h : Within path key) :
    key ≠ "" := by
  rcases h with rfl | ⟨rest, rfl⟩
  · exact hp
  · simp

/-! ## Properties -/

/-- The name stands for one segment of a path, and not for a type hint. -/
structure IsName (name : String) : Prop where
  ne_empty : name ≠ ""
  no_dot : '.' ∉ name.toList
  ne_hint : name ≠ hint

instance (name : String) : Decidable (IsName name) :=
  decidable_of_iff (name ≠ "" ∧ '.' ∉ name.toList ∧ name ≠ hint)
    ⟨fun ⟨he, hd, hh⟩ => ⟨he, hd, hh⟩, fun h => ⟨h.ne_empty, h.no_dot, h.ne_hint⟩⟩

@[simp] theorem join_empty (name : String) : join "" name = name := if_pos rfl

theorem join_of_ne {base : String} (h : base ≠ "") (name : String) :
    join base name = base ++ "." ++ name := if_neg h

@[simp] theorem hintOf_empty : hintOf "" = hint := join_empty _

theorem below_join {base : String} (h : base ≠ "") (name : String) : Below base (join base name) :=
  ⟨name, join_of_ne h name⟩

theorem below_hintOf {path : String} (h : path ≠ "") : Below path (hintOf path) := below_join h _

/-- The hint of an object in its own entries lies below no path. -/
theorem not_below_hint (path : String) : ¬ Below path hint := by
  rintro ⟨rest, hr⟩
  have hd : '.' ∈ hint.toList := by rw [hr]; simp
  exact absurd hd (by decide)

theorem join_ne_empty {base name : String} (h : name ≠ "") : join base name ≠ "" := by
  unfold join
  split
  · exact h
  · simp

theorem join_ne_empty_of_base {base name : String} (h : base ≠ "") : join base name ≠ "" := by
  rw [join_of_ne h]
  simp

theorem length_lt_join {base name : String} (h : name ≠ "") :
    base.length < (join base name).length := by
  by_cases hb : base = ""
  · subst hb
    rw [join_empty]
    exact Nat.pos_of_ne_zero fun h0 => h (String.length_eq_zero_iff.1 h0)
  · exact (below_join hb name).length_lt

/-- Behind its base, the key begins with the name of the property, up to the first dot. -/
theorem exists_of_within_join {base name key : String} (h : Within (join base name) key) :
    ∃ rest : List Char, key.toList ++ ['.'] =
      (if base = "" then [] else base.toList ++ ['.']) ++ (name.toList ++ '.' :: rest) := by
  unfold join at h
  rcases h with rfl | ⟨t, rfl⟩ <;> split <;> simp

/-- **The regions of two properties of one object are apart.** -/
theorem join_inj_of_within {base m n key : String} (hm : '.' ∉ m.toList) (hn : '.' ∉ n.toList)
    (h : Within (join base m) key) (h' : Within (join base n) key) : m = n := by
  obtain ⟨s, hs⟩ := exists_of_within_join h
  obtain ⟨t, ht⟩ := exists_of_within_join h'
  rw [hs, List.append_cancel_left_eq] at ht
  exact String.toList_inj.1 (Text.eq_of_append_cons_eq hm hn ht)

/-- A type hint lies in the region of no property. -/
theorem not_within_join_hintOf {base name : String} (h : IsName name) :
    ¬ Within (join base name) (hintOf base) := fun hw =>
  h.ne_hint (join_inj_of_within h.no_dot (by decide) hw (Within.self _))

/-- Nor does the type hint that an object has in its own entries. -/
theorem not_within_join_hint {base name : String} (h : IsName name) :
    ¬ Within (join base name) hint := fun hw => by
  by_cases hb : base = ""
  · subst hb
    exact not_within_join_hintOf h hw
  · exact not_below_hint base ((below_join hb name).trans_within hw)

/-! ## Elements -/

theorem element_eq (base text : String) : element base text = elementStart base ++ text ++ "]" :=
  rfl

theorem element_ne_empty (base text : String) : element base text ≠ "" := by
  simp [element]

theorem below_of_beginsWith_elementStart {base key : String}
    (h : beginsWith (elementStart base) key = true) : Below base key := by
  obtain ⟨t, rfl⟩ := beginsWith_iff.1 h
  refine ⟨"[" ++ t, ?_⟩
  rw [← String.toList_inj]
  simp [elementStart]

theorem beginsWith_element (base text : String) :
    beginsWith (elementStart base) (element base text) = true := by
  rw [element_eq, String.append_assoc]
  exact Text.beginsWith_append _ _

theorem below_element (base text : String) : Below base (element base text) :=
  below_of_beginsWith_elementStart (beginsWith_element base text)

theorem beginsWith_of_within_element {base text key : String} (h : Within (element base text) key) :
    beginsWith (elementStart base) key = true := by
  rcases h with rfl | ⟨rest, rfl⟩
  · exact beginsWith_element base text
  · refine Text.beginsWith_trans (beginsWith_element base text) ?_
    rw [String.append_assoc]
    exact Text.beginsWith_append _ _

theorem element_injective (base : String) : Function.Injective (element base) := fun s t h => by
  simpa [element] using h

theorem elementKey?_eq_some_iff {base key text : String} :
    elementKey? key (elementStart base) = some text ↔
      (∃ rest, key = element base text ++ rest) ∧ ']' ∉ text.toList := by
  simp only [elementKey?, Option.bind_eq_bind, Option.bind_eq_some_iff, Option.pure_def,
    Option.some.injEq, Prod.exists]
  constructor
  · rintro ⟨rest, hr, a, b, hc, rfl⟩
    obtain ⟨hab, ha⟩ := cut?_eq_some_iff.1 hc
    refine ⟨⟨b, ?_⟩, ha⟩
    rw [after?_eq_some_iff.1 hr, ← String.toList_inj]
    simp [element_eq, hab]
  · rintro ⟨⟨rest, rfl⟩, ht⟩
    refine ⟨text ++ "]" ++ rest, ?_, text, rest, ?_, rfl⟩
    · rw [after?_eq_some_iff, element_eq]
      simp only [String.append_assoc]
    · exact cut?_eq_some_iff.2 ⟨by simp, ht⟩

/-- The element that a key lies in or below is the one with the key text up to the first closing
bracket. -/
theorem elementPath?_eq_some_iff {base key path : String} :
    elementPath? key (elementStart base) = some path ↔
      ∃ text rest, ']' ∉ text.toList ∧ path = element base text ∧
        key = element base text ++ rest := by
  rw [elementPath?, Option.map_eq_some_iff]
  constructor
  · rintro ⟨text, ht, rfl⟩
    obtain ⟨⟨rest, hr⟩, hb⟩ := elementKey?_eq_some_iff.1 ht
    exact ⟨text, rest, hb, rfl, hr⟩
  · rintro ⟨text, rest, hb, rfl, hr⟩
    exact ⟨text, elementKey?_eq_some_iff.2 ⟨⟨rest, hr⟩, hb⟩, rfl⟩

theorem elementPath?_of_within {base text key : String} (ht : ']' ∉ text.toList)
    (h : Within (element base text) key) :
    elementPath? key (elementStart base) = some (element base text) := by
  rw [elementPath?_eq_some_iff]
  rcases h with rfl | ⟨rest, rfl⟩
  · exact ⟨text, "", ht, rfl, by simp⟩
  · exact ⟨text, "." ++ rest, ht, rfl, by simp only [String.append_assoc]⟩

theorem elementKey?_element {base text : String} (ht : ']' ∉ text.toList) :
    elementKey? (element base text) (elementStart base) = some text :=
  elementKey?_eq_some_iff.2 ⟨⟨"", by simp⟩, ht⟩

theorem leafKey?_eq_some_iff {base key text : String} :
    leafKey? key (elementStart base) = some text ↔ key = element base text := by
  simp only [leafKey?, Option.bind_eq_bind, Option.bind_eq_some_iff,
    Text.beforeLast?_eq_some_iff, after?_eq_some_iff]
  constructor
  · rintro ⟨rest, rfl, hr⟩
    rw [element_eq, String.append_assoc, String.append_right_inj, ← String.toList_inj, hr]
    simp
  · rintro rfl
    exact ⟨text ++ "]", by rw [element_eq, String.append_assoc], by simp⟩

/-- **The regions of two elements of one list or map are apart**, if their key texts have no
closing brackets. -/
theorem element_inj_of_within {base s t key : String} (hs : ']' ∉ s.toList) (ht : ']' ∉ t.toList)
    (h : Within (element base s) key) (h' : Within (element base t) key) : s = t := by
  have := (elementPath?_of_within hs h).symm.trans (elementPath?_of_within ht h')
  exact element_injective base (Option.some.inj this)

/-! ## Pointers -/

/-- A text is a pointer if it is made of a keyspace and an id, the keyspace being all that comes
before the first colon. -/
theorem splitPointer?_eq_some_iff {pointer keyspace id : String} :
    splitPointer? pointer = some (keyspace, id) ↔
      pointer = entityKey keyspace id ∧ keyspace ≠ "" ∧ id ≠ "" ∧ ':' ∉ keyspace.toList := by
  have hcut : Text.cut? ':' pointer = some (keyspace, id) ↔
      pointer = entityKey keyspace id ∧ ':' ∉ keyspace.toList := by
    rw [cut?_eq_some_iff, ← String.toList_inj]
    simp [entityKey]
  simp only [splitPointer?, Option.bind_eq_bind, Option.bind_eq_some_iff, Prod.exists]
  constructor
  · rintro ⟨a, b, hab, h⟩
    split at h
    · cases h
    · next hne =>
      cases h
      obtain ⟨rfl, hc⟩ := hcut.1 hab
      obtain ⟨hk, hid⟩ := not_or.1 hne
      exact ⟨rfl, hk, hid, hc⟩
  · rintro ⟨rfl, hk, hid, hc⟩
    exact ⟨keyspace, id, hcut.2 ⟨rfl, hc⟩, if_neg (not_or.2 ⟨hk, hid⟩)⟩

/-- A pointer is cut behind its keyspace, whatever the id is. -/
theorem splitPointer?_entityKey {keyspace id : String} (hc : ':' ∉ keyspace.toList)
    (hk : keyspace ≠ "") (hid : id ≠ "") :
    splitPointer? (entityKey keyspace id) = some (keyspace, id) :=
  splitPointer?_eq_some_iff.2 ⟨rfl, hk, hid, hc⟩

end FlatGraph.Path
