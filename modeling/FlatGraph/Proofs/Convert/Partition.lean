import FlatGraph.Proofs.Convert.Region

/-!
# Elements as parts of a record

The elements below a path are told apart by their keys: the path, `.[`, a key text, and `]`, where
the key text goes up to the first closing bracket. What follows is any text; only if it begins with
a dot, the key lies below the element (`Path.InElement`), and is extracted with it.

**Theorem (`Entries.elements_partition`).** The elements are listed once each, in the order in which
they come up in the record. Their entries (`Entries.members`) are those of the record below them, in
its order. No entry belongs to two elements, and those that belong to one are exactly the ones with
a key inside an element. The type hint of an element is that of its path.

A key is in one element at most, as it has one first closing bracket. This does not need that keys
are well-formed: key texts may hold dots and opening brackets, and keys may go on behind the
closing bracket without a dot.
-/

namespace FlatGraph

open FlatGraph.Path (Below)
open Text (beginsWith)

namespace Path

/-- The key lies below an element of the list or map at the path: behind the first closing bracket,
it goes on with a dot. -/
def InElement (path key : String) : Prop :=
  ∃ text rest, ']' ∉ text.toList ∧ key = path ++ ".[" ++ text ++ "]." ++ rest

theorem inElement_iff {path key : String} :
    InElement path key ↔
      ∃ e, elementPath? key (elementStart path) = some e ∧ Below e key := by
  have hdot : ∀ text rest : String, path ++ ".[" ++ text ++ "]." ++ rest =
      element path text ++ ("." ++ rest) := fun text rest =>
    String.toList_inj.1 (by simp [element])
  constructor
  · rintro ⟨text, rest, ht, rfl⟩
    refine ⟨element path text, ?_, rest, ?_⟩
    · exact elementPath?_eq_some_iff.2 ⟨text, "." ++ rest, ht, rfl, hdot text rest⟩
    · rw [hdot, String.append_assoc]
  · rintro ⟨e, he, rest, hkey⟩
    obtain ⟨text, -, ht, rfl, -⟩ := elementPath?_eq_some_iff.1 he
    exact ⟨text, rest, ht, by rw [hkey, hdot, String.append_assoc]⟩

theorem hintOf_eq {path : String} (h : path ≠ "") : hintOf path = path ++ "._class" := by
  rw [hintOf, join_of_ne h, String.append_assoc]
  rfl

/-- A key belongs to an element if it begins with its path. -/
theorem elementPath?_eq_some_iff_beginsWith {path text : String} (ht : ']' ∉ text.toList)
    (key : String) :
    elementPath? key (elementStart path) = some (element path text) ↔
      beginsWith (element path text) key = true := by
  rw [elementPath?_eq_some_iff, Text.beginsWith_iff]
  constructor
  · rintro ⟨_, rest, -, hpath, rfl⟩
    exact ⟨rest, by rw [hpath]⟩
  · rintro ⟨rest, hkey⟩
    exact ⟨text, rest, ht, rfl, hkey⟩

end Path

namespace Entries

/-- What is extracted with an element, without the hint that is added. -/
def members (es : Entries) (element : String) : List (String × Bytes) :=
  (es.extract element).toList.filter (·.1 ≠ Path.hint)

/-- The place of the first entry of an element in the record. -/
def firstAt (es : Entries) (element : String) : Nat :=
  es.toList.findIdx (beginsWith element ·.1)

variable {es : Entries} {path e : String}

theorem exists_of_mem_elementPaths (h : e ∈ es.elementPaths (Path.elementStart path)) :
    ∃ text, ']' ∉ text.toList ∧ e = Path.element path text := by
  obtain ⟨key, -, hkey⟩ := mem_elementPaths_iff.1 h
  obtain ⟨text, -, ht, rfl, -⟩ := Path.elementPath?_eq_some_iff.1 hkey
  exact ⟨text, ht, rfl⟩

theorem mem_elementPaths_iff_exists :
    e ∈ es.elementPaths (Path.elementStart path) ↔ ∃ x ∈ es.toList, ∃ text rest,
      ']' ∉ text.toList ∧ e = path ++ ".[" ++ text ++ "]" ∧ x.1 = e ++ rest := by
  rw [elementPaths, List.mem_eraseDups, List.mem_filterMap]
  refine exists_congr fun x => and_congr_right fun _ => Path.elementPath?_eq_some_iff.trans ?_
  refine exists_congr fun text => exists_congr fun rest => and_congr_right fun _ => ?_
  rw [Path.element]
  exact and_congr_right fun he => by rw [he]

/-- Elements are listed in the order in which they come up. -/
theorem pairwise_firstAt (es : Entries) (path : String) :
    (es.elementPaths (Path.elementStart path)).Pairwise fun d e => es.firstAt d < es.firstAt e := by
  have hfirst : ∀ e ∈ es.elementPaths (Path.elementStart path),
      es.toList.findIdx (Path.elementPath? ·.1 (Path.elementStart path) == some e) =
        es.firstAt e := by
    intro e he
    obtain ⟨text, ht, rfl⟩ := exists_of_mem_elementPaths he
    refine congrArg (List.findIdx · es.toList) (funext fun x => Bool.eq_iff_iff.2 ?_)
    rw [beq_iff_eq, Path.elementPath?_eq_some_iff_beginsWith ht]
  refine (Lists.pairwise_findIdx_eraseDups es.toList _).imp_of_mem fun {d e} hd he h => ?_
  rwa [hfirst d hd, hfirst e he] at h

/-- An element has what lies below it in the record. -/
theorem members_eq (es : Entries) (e : String) : es.members e = es.toList.filter (Below e ·.1) := by
  have hheld : Holds (es.extract e) (fun k => Below e k) (es.toList.filter (Below e ·.1)) :=
    Holds.extract rfl (fun _ => of_decide_eq_true) (decide_eq_false (Path.not_below_hint e))
  rw [← hheld, members]
  refine List.filter_congr fun x hx => decide_eq_decide.2 ?_
  have hget := get?_eq_some_iff.2 hx
  rw [get?_extract] at hget
  constructor
  · intro hne
    rw [if_neg fun h => hne h.1] at hget
    by_contra hb
    rw [if_neg hb] at hget
    cases hget
  · rintro hb hhint
    exact Path.not_below_hint e (hhint ▸ hb)

theorem mem_members_iff {x : String × Bytes} :
    x ∈ es.members e ↔ x ∈ es.toList ∧ Below e x.1 := by
  rw [members_eq, List.mem_filter, decide_eq_true_iff]

/-- No entry belongs to two elements. -/
theorem disjoint_members {d : String} (hd : d ∈ es.elementPaths (Path.elementStart path))
    (he : e ∈ es.elementPaths (Path.elementStart path)) (hne : d ≠ e) :
    (es.members d).Disjoint (es.members e) := by
  obtain ⟨s, hs, rfl⟩ := exists_of_mem_elementPaths hd
  obtain ⟨t, ht, rfl⟩ := exists_of_mem_elementPaths he
  intro x hxd hxe
  have hwithin := (mem_members_iff.1 hxd).2.within
  exact hne (congrArg _ (Path.element_inj_of_within hs ht hwithin (mem_members_iff.1 hxe).2.within))

theorem exists_mem_members_iff {x : String × Bytes} :
    (∃ e ∈ es.elementPaths (Path.elementStart path), x ∈ es.members e) ↔
      x ∈ es.toList ∧ Path.InElement path x.1 := by
  rw [Path.inElement_iff]
  constructor
  · rintro ⟨e, he, hx⟩
    obtain ⟨text, ht, rfl⟩ := exists_of_mem_elementPaths he
    obtain ⟨hmem, hb⟩ := mem_members_iff.1 hx
    exact ⟨hmem, _, Path.elementPath?_of_within ht hb.within, hb⟩
  · rintro ⟨hx, e, hkey, hb⟩
    refine ⟨e, mem_elementPaths_iff.2 ⟨x.1, ?_, hkey⟩, mem_members_iff.2 ⟨hx, hb⟩⟩
    rw [get?_eq_some_iff.2 hx]
    exact Option.some_ne_none _

/-- **The elements below a path are parts of the record, apart from each other.** -/
theorem elements_partition (es : Entries) (path : String) :
    (es.elementPaths (Path.elementStart path)).Nodup ∧
    (∀ e, e ∈ es.elementPaths (Path.elementStart path) ↔ ∃ x ∈ es.toList, ∃ text rest,
      ']' ∉ text.toList ∧ e = path ++ ".[" ++ text ++ "]" ∧ x.1 = e ++ rest) ∧
    ((es.elementPaths (Path.elementStart path)).Pairwise fun d e =>
      es.firstAt d < es.firstAt e) ∧
    (∀ e ∈ es.elementPaths (Path.elementStart path),
      es.members e = es.toList.filter (Below e ·.1)) ∧
    ((es.elementPaths (Path.elementStart path)).Pairwise fun d e =>
      (es.members d).Disjoint (es.members e)) ∧
    (∀ x, (∃ e ∈ es.elementPaths (Path.elementStart path), x ∈ es.members e) ↔
      x ∈ es.toList ∧ Path.InElement path x.1) ∧
    ∀ e ∈ es.elementPaths (Path.elementStart path),
      (es.extract e).get? Path.hint = es.get? (e ++ "._class") := by
  refine ⟨es.elementPaths_nodup _, fun _ => mem_elementPaths_iff_exists, pairwise_firstAt es path,
    fun e _ => members_eq es e, ?_, fun _ => exists_mem_members_iff, fun e he => ?_⟩
  · exact (es.elementPaths_nodup _).imp_of_mem disjoint_members
  · obtain ⟨text, -, rfl⟩ := exists_of_mem_elementPaths he
    rw [get?_extract_hint, Path.hintOf_eq (Path.element_ne_empty path text)]

/-- A key text may hold a dot and an opening bracket, but no closing one. -/
example : (Entries.empty.putAll [("shelf.[b.[].title", [1]), ("shelf.[a].].title", [2]),
    ("shelf.[b.[]title", [3]), ("shelf.[c", [4])]).elementPaths (Path.elementStart "shelf") =
      ["shelf.[b.[]", "shelf.[a]"] := by decide +kernel

end Entries

end FlatGraph
