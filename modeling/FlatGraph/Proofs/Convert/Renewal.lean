import FlatGraph.Proofs.Convert.Elements
import FlatGraph.Proofs.Convert.Fields

/-!
# Renewing a record

A walk renews a region of a record if what it leaves is what the record holds there (`Renews`). If
the parts of a walk leave pairs in regions apart from each other, the walk renews a region around
them exactly if each part renews its own and the record holds nothing beside them
(`renews_flatten_iff`).

* `renews_object_iff`: so it is with the properties of an object, beside its type hint.
-/

namespace FlatGraph

open Entries (lastOf)
open FlatGraph.Path (Below Within)

/-! ## Agreement -/

/-- What is left agrees with the record on a region. -/
def Agrees (xs : List (String × Bytes)) (es : Entries) (region : String → Bool) : Prop :=
  ∀ k, region k = true → lastOf xs k = es.get? k

/-- Pairs that may be left agree with the record on a region. -/
def Renews (leaves : List (String × Bytes) → Prop) (es : Entries) (region : String → Bool) :
    Prop := ∃ xs, leaves xs ∧ Agrees xs es region

theorem lastOf_eq_none {xs : List (String × Bytes)} {k : String} (h : ∀ x ∈ xs, x.1 ≠ k) :
    lastOf xs k = none := by
  cases hl : lastOf xs k with
  | none => rfl
  | some v => exact absurd rfl (h _ (Entries.mem_of_lastOf hl))

theorem Renews.congr {leaves leaves' : List (String × Bytes) → Prop} {es : Entries}
    {region : String → Bool} (h : ∀ xs, leaves xs ↔ leaves' xs) :
    Renews leaves es region ↔ Renews leaves' es region :=
  exists_congr fun xs => and_congr_left' (h xs)

/-! ## Parts -/

section Parts

variable {α : Type} {region : α → String → Bool} {outer : String → Bool} {as : List α}
  {parts : List (List (String × Bytes))} {es : Entries}

/-- In the region of a part, only what the part leaves counts. -/
theorem lastOf_flatten (hd : Apart region as)
    (hin : List.Forall₂ (fun a ys => ∀ x ∈ ys, region a x.1 = true) as parts) :
    List.Forall₂ (fun a ys => ∀ k, region a k = true → lastOf parts.flatten k = lastOf ys k)
      as parts := by
  induction hin with
  | nil => exact .nil
  | @cons a ys as parts hy hrest ih =>
    rw [Apart, List.pairwise_cons] at hd
    refine .cons (fun k hk => ?_) (Lists.forall₂_imp_mem (ih hd.2) fun b hb zs _ hz k hk => ?_)
    · have hnone : lastOf parts.flatten k = none := lastOf_eq_none fun x hx hxk => by
        obtain ⟨b, hb, hr⟩ := exists_region_of_mem hrest hx
        rw [hxk, hd.1 b hb k hk] at hr
        cases hr
      rw [List.flatten_cons, Entries.lastOf_append, hnone, Option.none_or]
    · have hnone : lastOf ys k = none := lastOf_eq_none fun x hx hxk => by
        have := hd.1 b hb x.1 (hy x hx)
        rw [hxk, hk] at this
        cases this
      rw [List.flatten_cons, Entries.lastOf_append, hz k hk, hnone, Option.or_none]

theorem agrees_flatten_iff (hd : Apart region as)
    (hin : List.Forall₂ (fun a ys => ∀ x ∈ ys, region a x.1 = true) as parts)
    (ho : ∀ a ∈ as, ∀ k, region a k = true → outer k = true) :
    Agrees parts.flatten es outer ↔
      (∀ k, outer k = true → es.get? k ≠ none → ∃ a ∈ as, region a k = true) ∧
        List.Forall₂ (fun a ys => Agrees ys es (region a)) as parts := by
  have hlast := lastOf_flatten hd hin
  constructor
  · intro h
    constructor
    · intro k hk hne
      rw [← h k hk] at hne
      obtain ⟨v, hv⟩ := Option.ne_none_iff_exists'.1 hne
      exact exists_region_of_mem hin (Entries.mem_of_lastOf hv)
    · refine Lists.forall₂_imp_mem hlast fun a ha ys _ hy k hk => ?_
      rw [← hy k hk, h k (ho a ha k hk)]
  · rintro ⟨hk, hparts⟩ k hko
    by_cases hne : ∃ a ∈ as, region a k = true
    · obtain ⟨a, ha, hr⟩ := hne
      obtain ⟨ys, -, hy, hagrees⟩ := Lists.exists_right_of_mem (Lists.forall₂_and hlast hparts) ha
      rw [hy k hr, hagrees k hr]
    · have hnone : lastOf parts.flatten k = none := lastOf_eq_none fun x hx hxk =>
        hne (hxk ▸ exists_region_of_mem hin hx)
      rw [hnone]
      by_contra h
      exact hne (hk k hko (Ne.symm h))

/-- **A walk renews a region around its parts exactly if each part renews its own**, and the record
holds nothing else there. -/
theorem renews_flatten_iff {leaves : α → List (String × Bytes) → Prop} (hd : Apart region as)
    (hin : ∀ a ∈ as, ∀ ys, leaves a ys → ∀ x ∈ ys, region a x.1 = true)
    (ho : ∀ a ∈ as, ∀ k, region a k = true → outer k = true) :
    Renews (fun xs => ∃ parts, List.Forall₂ leaves as parts ∧ xs = parts.flatten) es outer ↔
      (∀ k, outer k = true → es.get? k ≠ none → ∃ a ∈ as, region a k = true) ∧
        ∀ a ∈ as, Renews (leaves a) es (region a) := by
  constructor
  · rintro ⟨_, ⟨parts, hl, rfl⟩, hagrees⟩
    have hparts := Lists.forall₂_imp_mem hl fun a ha ys _ hy => hin a ha ys hy
    obtain ⟨hk, hall⟩ := (agrees_flatten_iff hd hparts ho).1 hagrees
    refine ⟨hk, fun a ha => ?_⟩
    obtain ⟨ys, -, hy⟩ := Lists.exists_right_of_mem (Lists.forall₂_and hl hall) ha
    exact ⟨ys, hy⟩
  · rintro ⟨hk, hall⟩
    obtain ⟨parts, hp⟩ := Lists.exists_forall₂ hall
    have hl : List.Forall₂ leaves as parts := hp.imp fun _ _ h => h.1
    have hparts := Lists.forall₂_imp_mem hl fun a ha ys _ hy => hin a ha ys hy
    exact ⟨_, ⟨parts, hl, rfl⟩, (agrees_flatten_iff hd hparts ho).2 ⟨hk, hp.imp fun _ _ h => h.2⟩⟩

/-- In the region of a part that shares no key with the others, only what this part leaves counts,
even if the others get in each other's way. -/
theorem lastOf_flatten_of_mem {ys : List (String × Bytes)} {k : String} (hy : ys ∈ parts)
    (h : ∀ zs ∈ parts, zs = ys ∨ ∀ x ∈ zs, x.1 ≠ k) : lastOf parts.flatten k = lastOf ys k := by
  have hall : lastOf parts.flatten k = if ys ∈ parts then lastOf ys k else none := by
    clear hy
    induction parts with
    | nil => rfl
    | cons zs parts ih =>
      rw [List.flatten_cons, Entries.lastOf_append,
        ih fun zs hzs => h zs (List.mem_cons_of_mem _ hzs)]
      rcases h zs List.mem_cons_self with rfl | hz
      · rw [if_pos List.mem_cons_self]
        split
        · exact Option.or_self
        · exact Option.none_or
      · rw [lastOf_eq_none hz, Option.or_none]
        by_cases hys : ys ∈ parts
        · rw [if_pos hys, if_pos (List.mem_cons_of_mem _ hys)]
        · rw [if_neg hys]
          split_ifs with hmem
          · rw [(List.mem_cons.1 hmem).resolve_right hys, lastOf_eq_none hz]
          · rfl
  rw [hall, if_pos hy]

/-- So this part renews its own region, if the whole renews a region around it. -/
theorem Renews.part {leaves : α → List (String × Bytes) → Prop} {a : α}
    (hone : ∀ xs ys, leaves a xs → leaves a ys → xs = ys)
    (hin : ∀ b ∈ as, ∀ ys, leaves b ys → ∀ x ∈ ys, region b x.1 = true) (ha : a ∈ as)
    (hd : ∀ b ∈ as, b ≠ a → ∀ k, region a k = true → region b k = false)
    (ho : ∀ k, region a k = true → outer k = true)
    (h : Renews (fun xs => ∃ parts, List.Forall₂ leaves as parts ∧ xs = parts.flatten) es outer) :
    Renews (leaves a) es (region a) := by
  classical
  obtain ⟨_, ⟨parts, hl, rfl⟩, hagrees⟩ := h
  obtain ⟨ys, hys, hy⟩ := Lists.exists_right_of_mem hl ha
  refine ⟨ys, hy, fun k hk => ?_⟩
  rw [← hagrees k (ho k hk)]
  refine (lastOf_flatten_of_mem hys fun zs hzs => ?_).symm
  obtain ⟨b, hb, hz⟩ := Lists.exists_left_of_mem hl hzs
  by_cases hba : b = a
  · subst hba
    exact .inl (hone _ _ hz hy)
  · refine .inr fun x hx hxk => ?_
    have hnot := hd b hb hba k hk
    rw [← hxk, hin b hb zs hz x hx] at hnot
    cases hnot

end Parts

/-! ## Objects -/

open Write (Leaves LeavesAt)

theorem renews_eq_iff {before : List (String × Bytes)} {es : Entries} {key : String} :
    Renews (· = before) es (· == key) ↔ lastOf before key = es.get? key := by
  constructor
  · rintro ⟨_, rfl, h⟩
    exact h key (beq_self_eq_true key)
  · intro h
    refine ⟨before, rfl, fun k hk => ?_⟩
    rw [eq_of_beq hk, h]

/-- What is left for a part of an object: the type hint, or the value of a property. -/
def FieldLeaves (r : Registry) (root : Bool) (base : String) (fields : List (String × Value))
    (before : List (String × Bytes)) : Option Property → List (String × Bytes) → Prop
  | none => (· = before)
  | some p => LeavesAt r root (Path.join base p.name) p (Fields.get? fields p.name)

section Object

variable {r : Registry} {root : Bool} {base : String} {fields : List (String × Value)}
  {ps : List Property} {before : List (String × Bytes)} {es : Entries}

/-- What is left for a part of an object lies in its region. -/
theorem fieldRegion_of_leaves (hn : ∀ p ∈ ps, Path.IsName p.name)
    (hb : ∀ x ∈ before, x.1 = Path.hintOf base) {a : Option Property} (ha : a ∈ none :: ps.map some)
    {ys : List (String × Bytes)} (hl : FieldLeaves r root base fields before a ys) :
    ∀ x ∈ ys, fieldRegion base a x.1 = true := by
  intro x hx
  rcases List.mem_cons.1 ha with rfl | ha
  · cases (show ys = before from hl)
    exact beq_iff_eq.2 (hb x hx)
  · obtain ⟨p, hp, rfl⟩ := List.mem_map.1 ha
    exact inRegion_iff.2 (Write.region_of_leavesAt (Path.join_ne_empty (hn p hp).ne_empty) hl x hx)

/-- What is left for an object is what is left for its parts. -/
theorem leaves_fields_iff {xs : List (String × Bytes)} :
    (∃ ys, Leaves (Write.properties r root base fields ps) ys ∧ xs = before ++ ys) ↔
      ∃ parts, List.Forall₂ (FieldLeaves r root base fields before) (none :: ps.map some) parts ∧
        xs = parts.flatten := by
  simp only [Write.leaves_properties_iff, List.forall₂_cons_left_iff, List.forall₂_map_left_iff]
  constructor
  · rintro ⟨_, ⟨parts, hl, rfl⟩, rfl⟩
    exact ⟨_, ⟨before, parts, rfl, hl, rfl⟩, rfl⟩
  · rintro ⟨_, ⟨ys, parts, hy, hl, rfl⟩, rfl⟩
    exact ⟨_, ⟨parts, hl, rfl⟩, congrArg (· ++ parts.flatten) (show ys = before from hy)⟩

/-- **An object renews a region around it exactly if its type hint and each of its properties do**,
and the record holds nothing else there. -/
theorem renews_object_iff {outer : String → Bool} (hn : ∀ p ∈ ps, Path.IsName p.name)
    (hu : (ps.map (·.name)).Nodup) (hb : ∀ x ∈ before, x.1 = Path.hintOf base)
    (hh : outer (Path.hintOf base) = true)
    (ho : ∀ p ∈ ps, ∀ k, Within (Path.join base p.name) k → outer k = true) :
    Renews (fun xs => ∃ ys, Leaves (Write.properties r root base fields ps) ys ∧
        xs = before ++ ys) es outer ↔
      lastOf before (Path.hintOf base) = es.get? (Path.hintOf base) ∧
        (∀ k, outer k = true → es.get? k ≠ none →
          k = Path.hintOf base ∨ ∃ p ∈ ps, Within (Path.join base p.name) k) ∧
        ∀ p ∈ ps, Renews (LeavesAt r root (Path.join base p.name) p (Fields.get? fields p.name)) es
          (inRegion (Path.join base p.name)) := by
  have houter : ∀ a ∈ none :: ps.map some, ∀ k, fieldRegion base a k = true → outer k = true := by
    intro a ha k hk
    rcases List.mem_cons.1 ha with rfl | ha
    · rwa [eq_of_beq (show (k == Path.hintOf base) = true from hk)]
    · obtain ⟨p, hp, rfl⟩ := List.mem_map.1 ha
      exact ho p hp k (inRegion_iff.1 hk)
  have hleaves : (∀ a ∈ none :: ps.map some,
        Renews (FieldLeaves r root base fields before a) es (fieldRegion base a)) ↔
      lastOf before (Path.hintOf base) = es.get? (Path.hintOf base) ∧ ∀ p ∈ ps,
        Renews (LeavesAt r root (Path.join base p.name) p (Fields.get? fields p.name)) es
          (inRegion (Path.join base p.name)) := by
    rw [List.forall_mem_cons, List.forall_mem_map]
    exact and_congr_left' renews_eq_iff
  rw [Renews.congr fun xs => leaves_fields_iff, renews_flatten_iff (apart_fieldRegion hn hu)
    (fun a ha ys => fieldRegion_of_leaves hn hb ha) houter, hleaves]
  simp only [exists_fieldRegion_iff]
  exact and_left_comm

end Object

end FlatGraph
