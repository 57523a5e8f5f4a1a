import FlatGraph.Proofs.Lists
import FlatGraph.Proofs.Path
import FlatGraph.Record
import Mathlib.Data.List.Perm.Basic
import Mathlib.Data.List.Induction
import Mathlib.Data.List.Nodup

/-!
# Entries as a map

The entries of a record are seen through `get?`. Each operation is described by what it does to
this view: `put` changes one key, `filter` keeps some, `extract` keeps what lies below a path and
adds a type hint. Two records that agree on every key are the same (`same_iff`), and hold the same
pairs in some order (`perm_iff`).
-/

namespace FlatGraph.Entries

open FlatGraph.Path (Below Within)
open Text (beginsWith)

/-! ## Looking up -/

theorem get?_eq_some_iff {es : Entries} {k : String} {v : Bytes} :
    es.get? k = some v ↔ (k, v) ∈ es.toList := Lists.lookup_eq_some_iff es.distinct

theorem get?_eq_none_iff {es : Entries} {k : String} :
    es.get? k = none ↔ ∀ v, (k, v) ∉ es.toList := by
  rw [Option.eq_none_iff_forall_ne_some]
  exact forall_congr' fun v => not_congr get?_eq_some_iff

theorem ne_empty_of_get? {es : Entries} {k : String} {v : Bytes} (h : es.get? k = some v) :
    k ≠ "" ∧ v ≠ [] := es.filled _ (get?_eq_some_iff.1 h)

@[simp] theorem get?_empty_key (es : Entries) : es.get? "" = none := by
  cases h : es.get? "" with
  | none => rfl
  | some v => exact absurd rfl (ne_empty_of_get? h).1

@[simp] theorem get?_empty (k : String) : Entries.empty.get? k = none := rfl

theorem size_eq_zero_iff {es : Entries} : es.size = 0 ↔ ∀ k, es.get? k = none := by
  rw [size, List.length_eq_zero_iff, List.eq_nil_iff_forall_not_mem]
  constructor
  · exact fun h k => get?_eq_none_iff.2 fun v => h (k, v)
  · exact fun h e => get?_eq_none_iff.1 (h e.1) e.2

theorem ext_toList {as bs : Entries} (h : as.toList = bs.toList) : as = bs := by
  cases as
  cases bs
  congr

/-! ## Putting -/

theorem lookup_write (key : String) (value : Bytes) (l : List (String × Bytes)) (k : String) :
    (write key value l).lookup k = if k = key then some value else l.lookup k := by
  induction l with
  | nil => exact Lists.lookup_cons_eq _ _ _ _
  | cons e l ih =>
    obtain ⟨a, b⟩ := e
    unfold write
    by_cases ha : a = key
    · subst ha
      rw [if_pos rfl, Lists.lookup_cons_eq, Lists.lookup_cons_eq]
      split <;> rfl
    · rw [if_neg ha, Lists.lookup_cons_eq, Lists.lookup_cons_eq, ih]
      by_cases hk : k = a
      · rw [if_pos hk, if_neg (hk ▸ ha), if_pos hk]
      · rw [if_neg hk, if_neg hk]

theorem put_of_empty {es : Entries} {key : String} {value : Bytes} (h : key = "" ∨ value = []) :
    es.put key value = es := dif_pos h

theorem toList_put {es : Entries} {key : String} {value : Bytes} (hk : key ≠ "") (hv : value ≠ []) :
    (es.put key value).toList = write key value es.toList := by
  rw [put, dif_neg (not_or.2 ⟨hk, hv⟩)]

/-- `put` changes the value at one key, unless there is nothing to put. -/
theorem get?_put (es : Entries) (key : String) (value : Bytes) (k : String) :
    (es.put key value).get? k =
      if k = key ∧ key ≠ "" ∧ value ≠ [] then some value else es.get? k := by
  by_cases h : key = "" ∨ value = []
  · rw [put_of_empty h, if_neg fun hk => h.elim hk.2.1 hk.2.2]
  · have h' := not_or.1 h
    rw [get?, toList_put h'.1 h'.2, lookup_write, get?]
    simp [h'.1, h'.2]

/-- What putting pairs one after another leaves at a key: the last value that is not empty. -/
def lastOf (xs : List (String × Bytes)) (key : String) : Option Bytes :=
  (Entries.empty.putAll xs).get? key

theorem putAll_append (es : Entries) (xs ys : List (String × Bytes)) :
    es.putAll (xs ++ ys) = (es.putAll xs).putAll ys := List.foldl_append

theorem get?_putAll (es : Entries) (xs : List (String × Bytes)) (k : String) :
    (es.putAll xs).get? k = (lastOf xs k).or (es.get? k) := by
  induction xs using List.reverseRecOn with
  | nil => rfl
  | append_singleton xs x ih =>
    rw [lastOf, putAll_append, putAll_append]
    show ((es.putAll xs).put x.1 x.2).get? k =
      (((Entries.empty.putAll xs).put x.1 x.2).get? k).or _
    rw [get?_put, get?_put]
    split
    · rfl
    · exact ih

@[simp] theorem lastOf_nil (k : String) : lastOf [] k = none := rfl

theorem lastOf_append (xs ys : List (String × Bytes)) (k : String) :
    lastOf (xs ++ ys) k = (lastOf ys k).or (lastOf xs k) := by
  rw [lastOf, putAll_append, get?_putAll, lastOf, lastOf]

theorem lastOf_singleton (key : String) (value : Bytes) (k : String) :
    lastOf [(key, value)] k = if k = key ∧ key ≠ "" ∧ value ≠ [] then some value else none :=
  get?_put _ _ _ _

theorem mem_of_lastOf {xs : List (String × Bytes)} {k : String} {v : Bytes}
    (h : lastOf xs k = some v) : (k, v) ∈ xs := by
  induction xs using List.reverseRecOn with
  | nil => cases h
  | append_singleton xs x ih =>
    rw [lastOf_append, lastOf_singleton] at h
    split at h
    · next hk =>
      obtain ⟨rfl, -, -⟩ := hk
      cases h
      simp
    · exact List.mem_append_left _ (ih h)

theorem lastOf_ne_none_of_mem {xs : List (String × Bytes)} {x : String × Bytes} (hx : x ∈ xs)
    (hk : x.1 ≠ "") (hv : x.2 ≠ []) : lastOf xs x.1 ≠ none := by
  obtain ⟨before, after, rfl⟩ := List.append_of_mem hx
  rw [← List.singleton_append, lastOf_append, lastOf_append, lastOf_singleton,
    if_pos ⟨rfl, hk, hv⟩]
  cases lastOf after x.1 <;> simp

/-- Where no two pairs get in each other's way, all pairs are kept but the empty ones. -/
theorem mem_toList_putAll_iff {xs : List (String × Bytes)} {x : String × Bytes}
    (h : ∀ y ∈ xs, ∀ z ∈ xs, y.2 ≠ [] → z.2 ≠ [] → y.1 = z.1 → y = z) :
    x ∈ (Entries.empty.putAll xs).toList ↔ x ∈ xs ∧ x.1 ≠ "" ∧ x.2 ≠ [] := by
  constructor
  · intro hx
    exact ⟨mem_of_lastOf (get?_eq_some_iff.2 hx), (Entries.empty.putAll xs).filled x hx⟩
  · rintro ⟨hx, hk, hv⟩
    obtain ⟨v, hlast⟩ := Option.ne_none_iff_exists'.1 (lastOf_ne_none_of_mem hx hk hv)
    have heq : x = (x.1, v) :=
      h x hx _ (mem_of_lastOf hlast) hv (ne_empty_of_get? hlast).2 rfl
    rw [heq]
    exact get?_eq_some_iff.1 hlast

theorem write_of_not_mem {key : String} {value : Bytes} {l : List (String × Bytes)}
    (h : key ∉ l.map Prod.fst) : write key value l = l ++ [(key, value)] := by
  induction l with
  | nil => rfl
  | cons e l ih =>
    rw [List.map_cons, List.mem_cons, not_or] at h
    rw [write, if_neg (Ne.symm h.1), ih h.2, List.cons_append]

/-- Pairs that are all different, and none of them empty, are put in their order. -/
theorem toList_putAll {xs : List (String × Bytes)} (hd : (xs.map Prod.fst).Nodup)
    (hf : ∀ x ∈ xs, x.1 ≠ "" ∧ x.2 ≠ []) : (Entries.empty.putAll xs).toList = xs := by
  induction xs using List.reverseRecOn with
  | nil => rfl
  | append_singleton xs x ih =>
    rw [List.map_append, List.map_singleton, List.nodup_append] at hd
    have hx : x.1 ∉ xs.map Prod.fst := fun h => hd.2.2 _ h _ (List.mem_singleton_self _) rfl
    have hxs := ih hd.1 fun y hy => hf y (List.mem_append_left _ hy)
    have hxf := hf x (by simp)
    rw [putAll_append]
    show ((Entries.empty.putAll xs).put x.1 x.2).toList = _
    rw [toList_put hxf.1 hxf.2, hxs, write_of_not_mem hx]

/-- Entries put into an empty map give the same map again. -/
theorem putAll_toList (es : Entries) : Entries.empty.putAll es.toList = es :=
  ext_toList (toList_putAll es.distinct es.filled)

/-! ## Taking parts -/

theorem get?_filter (es : Entries) (p : String → Bool) (k : String) :
    (es.filter p).get? k = if p k then es.get? k else none := by
  ext v
  rw [get?_eq_some_iff, filter, List.mem_filter, ← get?_eq_some_iff]
  split <;> simp [*]

theorem mem_below_iff {es : Entries} {start : String} {e : String × Bytes} :
    e ∈ es.below start ↔ es.get? e.1 = some e.2 ∧ beginsWith start e.1 = true := by
  rw [below, List.mem_filter, get?_eq_some_iff]

theorem below_distinct (es : Entries) (start : String) :
    ((es.below start).map Prod.fst).Nodup := es.distinct.sublist (List.filter_sublist.map _)

/-- What `extract` holds: the entries below the path, and the type hint of the path as a hint of
its own. -/
theorem get?_extract (es : Entries) (path k : String) :
    (es.extract path).get? k =
      if k = Path.hint ∧ es.get? (Path.hintOf path) ≠ none then es.get? (Path.hintOf path)
      else if Below path k then es.get? k else none := by
  have hsub : (es.filter (beginsWith (Path.subtreeStart path))).get? k =
      if Below path k then es.get? k else none := by
    rw [get?_filter]
    exact if_congr Path.beginsWith_subtreeStart_iff rfl rfl
  unfold extract
  cases hh : es.get? (Path.hintOf path) with
  | none => simpa using hsub
  | some type =>
    have hne := (ne_empty_of_get? hh).2
    simp only
    rw [get?_put, hsub]
    by_cases hk : k = Path.hint
    · rw [if_pos ⟨hk, by decide, hne⟩, if_pos ⟨hk, by simp⟩]
    · rw [if_neg fun h : k = Path.hint ∧ _ => hk h.1, if_neg fun h : k = Path.hint ∧ _ => hk h.1]

theorem get?_extract_of_below {es : Entries} {path k : String} (hk : k ≠ Path.hint)
    (h : Below path k) : (es.extract path).get? k = es.get? k := by
  rw [get?_extract, if_neg fun h' => hk h'.1, if_pos h]

theorem get?_extract_hint (es : Entries) (path : String) :
    (es.extract path).get? Path.hint = es.get? (Path.hintOf path) := by
  rw [get?_extract]
  by_cases hn : es.get? (Path.hintOf path) = none
  · rw [if_neg fun h' => h'.2 hn, hn]
    exact if_neg (Path.not_below_hint path)
  · rw [if_pos ⟨rfl, hn⟩]

theorem size_extract_eq_zero_iff {es : Entries} {path : String} (h : path ≠ "") :
    (es.extract path).size = 0 ↔ ∀ k, Below path k → es.get? k = none := by
  rw [size_eq_zero_iff]
  constructor
  · intro hz k hk
    by_cases hh : k = Path.hint
    · exact absurd (hh ▸ hk) (Path.not_below_hint path)
    · rw [← get?_extract_of_below hh hk, hz]
  · intro hz k
    rw [get?_extract, if_neg fun h' => h'.2 (hz _ (Path.below_hintOf h))]
    split
    · next hb => exact hz _ hb
    · rfl

theorem elementPaths_nodup (es : Entries) (start : String) : (es.elementPaths start).Nodup :=
  Lists.nodup_eraseDups _

theorem mem_elementPaths_iff {es : Entries} {start path : String} :
    path ∈ es.elementPaths start ↔
      ∃ k, es.get? k ≠ none ∧ Path.elementPath? k start = some path := by
  rw [elementPaths, List.mem_eraseDups, List.mem_filterMap]
  constructor
  · rintro ⟨e, he, hp⟩
    exact ⟨e.1, by rw [get?_eq_some_iff.2 he]; simp, hp⟩
  · rintro ⟨k, hk, hp⟩
    obtain ⟨v, hv⟩ := Option.ne_none_iff_exists'.1 hk
    exact ⟨(k, v), get?_eq_some_iff.1 hv, hp⟩

/-! ## Comparing -/

theorem perm_of_get? {as bs : Entries} (h : ∀ k, as.get? k = bs.get? k) :
    as.toList.Perm bs.toList := by
  rw [List.perm_ext_iff_of_nodup (List.Nodup.of_map _ as.distinct)
    (List.Nodup.of_map _ bs.distinct)]
  rintro ⟨k, v⟩
  rw [← get?_eq_some_iff, ← get?_eq_some_iff, h]

theorem get?_of_perm {as bs : Entries} (h : as.toList.Perm bs.toList) (k : String) :
    as.get? k = bs.get? k := by
  ext v
  rw [get?_eq_some_iff, get?_eq_some_iff, h.mem_iff]

/-- Records hold the same pairs in some order exactly if they agree on every key. -/
theorem perm_iff {as bs : Entries} :
    as.toList.Perm bs.toList ↔ ∀ k, as.get? k = bs.get? k := ⟨get?_of_perm, perm_of_get?⟩

/-- Records are the same exactly if they agree on every key. -/
theorem same_iff {as bs : Entries} : as.same bs = true ↔ ∀ k, as.get? k = bs.get? k := by
  rw [same, Bool.and_eq_true, beq_iff_eq, List.all_eq_true]
  constructor
  · rintro ⟨hs, ha⟩
    have hsub : as.toList ⊆ bs.toList := fun e he => get?_eq_some_iff.1 (by simpa using ha e he)
    exact get?_of_perm (List.Subperm.perm_of_length_le
      (List.subperm_of_subset (List.Nodup.of_map _ as.distinct) hsub) hs.ge)
  · intro h
    exact ⟨(perm_of_get? h).length_eq, fun e he => by
      rw [beq_iff_eq, ← h]
      exact get?_eq_some_iff.2 he⟩

/-! ## Reordering -/

section Perm

variable {as bs : Entries} (h : as.toList.Perm bs.toList)

include h

theorem size_perm : as.size = bs.size := h.length_eq

theorem extract_perm (path : String) : (as.extract path).toList.Perm (bs.extract path).toList := by
  refine perm_of_get? fun k => ?_
  simp only [get?_extract, get?_of_perm h]

theorem below_perm (start : String) : (as.below start).Perm (bs.below start) := h.filter _

theorem elementPaths_perm (start : String) :
    (as.elementPaths start).Perm (bs.elementPaths start) := by
  rw [List.perm_ext_iff_of_nodup (as.elementPaths_nodup start) (bs.elementPaths_nodup start)]
  intro path
  simp only [mem_elementPaths_iff, get?_of_perm h]

end Perm

end FlatGraph.Entries
