import FlatGraph.Proofs.Convert.Read
import Mathlib.Data.List.Pairwise

/-!
# Parts of a record

What a record holds in a region, in the order of the record (`Holds`). Lists of pairs that lie in
regions apart from each other can be put into one record without getting in each other's way:
each region then holds its own list (`Holds.of_apart`), and all pairs are different
(`Tidy.flatten`). Pairs without a value are not stored; what is said of lists of pairs holds for the
other ones among them (`filled`).
-/

namespace FlatGraph

open FlatGraph.Path (Below Within)

/-! ## Lists of pairs -/

/-- The pairs have different keys and no empty values, so that all of them are kept in a record. -/
structure Tidy (xs : List (String × Bytes)) : Prop where
  distinct : (xs.map Prod.fst).Nodup
  filled : ∀ x ∈ xs, x.2 ≠ []

theorem Tidy.nil : Tidy [] := ⟨List.nodup_nil, fun _ h => nomatch h⟩

theorem Tidy.singleton {key : String} {value : Bytes} (h : value ≠ []) : Tidy [(key, value)] :=
  ⟨List.nodup_singleton _, fun x hx => by rwa [List.mem_singleton.1 hx]⟩

theorem Tidy.append {xs ys : List (String × Bytes)} (hx : Tidy xs) (hy : Tidy ys)
    (h : ∀ x ∈ xs, ∀ y ∈ ys, x.1 ≠ y.1) : Tidy (xs ++ ys) := by
  refine ⟨?_, fun x hm => (List.mem_append.1 hm).elim (hx.filled x) (hy.filled x)⟩
  rw [List.map_append, List.nodup_append]
  refine ⟨hx.distinct, hy.distinct, ?_⟩
  simp only [List.mem_map]
  rintro _ ⟨x, hxm, rfl⟩ _ ⟨y, hym, rfl⟩
  exact h x hxm y hym

section Apart

variable {α : Type} {region : α → String → Bool} {as : List α}
  {parts : List (List (String × Bytes))}

/-- The regions have no key in common. -/
def Apart (region : α → String → Bool) (as : List α) : Prop :=
  as.Pairwise fun a b => ∀ k, region a k = true → region b k = false

theorem exists_region_of_mem
    (h : List.Forall₂ (fun a ys => ∀ x ∈ ys, region a x.1 = true) as parts)
    {x : String × Bytes} (hx : x ∈ parts.flatten) : ∃ a ∈ as, region a x.1 = true := by
  induction h with
  | nil => cases hx
  | cons hy _ ih =>
    rcases List.mem_append.1 hx with hx | hx
    · exact ⟨_, List.mem_cons_self, hy x hx⟩
    · obtain ⟨a, ha, hr⟩ := ih hx
      exact ⟨a, List.mem_cons_of_mem _ ha, hr⟩

theorem Tidy.flatten (hd : Apart region as)
    (h : List.Forall₂ (fun a ys => ∀ x ∈ ys, region a x.1 = true) as parts)
    (ht : ∀ ys ∈ parts, Tidy ys) : Tidy parts.flatten := by
  induction h with
  | nil => exact .nil
  | cons hy hrest ih =>
    rw [Apart, List.pairwise_cons] at hd
    refine (ht _ List.mem_cons_self).append
      (ih hd.2 fun ys hys => ht ys (List.mem_cons_of_mem _ hys)) fun x hx z hz hxz => ?_
    obtain ⟨b, hb, hr⟩ := exists_region_of_mem hrest hz
    have := hd.1 b hb x.1 (hy x hx)
    rw [hxz, hr] at this
    cases this

theorem forall₂_flatMap {left : α → List (String × Bytes)}
    (hin : ∀ a ∈ as, ∀ x ∈ left a, region a x.1 = true) :
    List.Forall₂ (fun a ys => ∀ x ∈ ys, region a x.1 = true) as (as.map left) := by
  rwa [List.forall₂_map_right_iff, List.forall₂_same]

theorem Tidy.flatMap {left : α → List (String × Bytes)} (hd : Apart region as)
    (hin : ∀ a ∈ as, ∀ x ∈ left a, region a x.1 = true) (ht : ∀ a ∈ as, Tidy (left a)) :
    Tidy (as.flatMap left) :=
  Tidy.flatten hd (forall₂_flatMap hin) (List.forall_mem_map.2 ht)

/-- Pairs before the parts that lie in none of the regions do not matter. -/
theorem filter_flatten_of_apart (hd : Apart region as)
    (h : List.Forall₂ (fun a ys => ∀ x ∈ ys, region a x.1 = true) as parts) :
    ∀ before : List (String × Bytes), (∀ a ∈ as, ∀ x ∈ before, region a x.1 = false) →
      List.Forall₂ (fun a ys => (before ++ parts.flatten).filter (region a ·.1) = ys) as parts := by
  induction h with
  | nil => exact fun _ _ => .nil
  | @cons a ys as parts hy hrest ih =>
    intro before hb
    rw [Apart, List.pairwise_cons] at hd
    refine .cons ?_ ?_
    · have hrest' : ∀ x ∈ parts.flatten, region a x.1 = false := fun x hx => by
        obtain ⟨b, hbm, hr⟩ := exists_region_of_mem hrest hx
        cases ha : region a x.1 with
        | false => rfl
        | true =>
          rw [hd.1 b hbm x.1 ha] at hr
          cases hr
      rw [List.filter_append, List.flatten_cons, List.filter_append,
        List.filter_eq_nil_iff.2 (by simpa using hb a List.mem_cons_self),
        List.filter_eq_self.2 hy, List.filter_eq_nil_iff.2 (by simpa using hrest'),
        List.nil_append, List.append_nil]
    · rw [List.flatten_cons, ← List.append_assoc]
      refine ih hd.2 _ fun b hbm x hx => ?_
      rcases List.mem_append.1 hx with hx | hx
      · exact hb b (List.mem_cons_of_mem _ hbm) x hx
      · exact hd.1 b hbm x.1 (hy x hx)

/-- A key lies in one of the regions at most. -/
theorem Apart.eq_of_mem (hd : Apart region as) {a b : α} (ha : a ∈ as) (hb : b ∈ as) {k : String}
    (hk : region a k = true) (hk' : region b k = true) : a = b := by
  have hsymm : Std.Symm fun a b : α => ∀ k, region a k = true → region b k = false :=
    ⟨fun a b h k hb => by
      rw [← Bool.not_eq_true]
      intro ha
      rw [h k ha] at hb
      cases hb⟩
  by_contra hne
  rw [hd.forall ha hb hne k hk] at hk'
  cases hk'

end Apart

/-! ## Regions of a record -/

/-- The record holds exactly these pairs in the region, in this order. -/
def Holds (es : Entries) (region : String → Bool) (xs : List (String × Bytes)) : Prop :=
  es.toList.filter (region ·.1) = xs

namespace Holds

variable {es : Entries} {region inside : String → Bool} {xs : List (String × Bytes)}

theorem get? (h : Holds es region xs) {k : String} {v : Bytes} (hk : (k, v) ∈ xs) :
    es.get? k = some v := by
  rw [← h] at hk
  exact Entries.get?_eq_some_iff.2 (List.mem_filter.1 hk).1

theorem get?_eq_none (h : Holds es region xs) {k : String} (hr : region k = true)
    (hk : ∀ v, (k, v) ∉ xs) : es.get? k = none := by
  rw [Entries.get?_eq_none_iff]
  intro v hv
  refine hk v ?_
  rw [← h]
  exact List.mem_filter.2 ⟨hv, hr⟩

/-- A region inside another. -/
theorem sub (h : Holds es region xs) (hi : ∀ k, inside k = true → region k = true) :
    Holds es inside (xs.filter (inside ·.1)) := by
  rw [← h, Holds, List.filter_filter]
  refine List.filter_congr fun e _ => ?_
  cases he : inside e.1 with
  | false => rfl
  | true => rw [hi _ he, Bool.true_and]

/-- Regions apart from each other hold the pairs that lie in them. -/
theorem of_apart {α : Type} {regions : α → String → Bool} {as : List α}
    {parts : List (List (String × Bytes))} (h : Holds es region parts.flatten)
    (hd : Apart regions as)
    (hp : List.Forall₂ (fun a ys => ∀ x ∈ ys, regions a x.1 = true) as parts)
    (hi : ∀ a ∈ as, ∀ k, regions a k = true → region k = true) :
    List.Forall₂ (fun a ys => Holds es (regions a) ys) as parts := by
  have hparts := filter_flatten_of_apart hd hp [] fun _ _ _ hx => nomatch hx
  refine Lists.forall₂_imp_mem hparts fun a ha ys _ hy => ?_
  rw [← hy]
  exact h.sub (hi a ha)

theorem of_flatMap {α : Type} {regions : α → String → Bool} {as : List α}
    {left : α → List (String × Bytes)} (h : Holds es region (as.flatMap left))
    (hd : Apart regions as) (hin : ∀ a ∈ as, ∀ x ∈ left a, regions a x.1 = true)
    (hi : ∀ a ∈ as, ∀ k, regions a k = true → region k = true) :
    ∀ a ∈ as, Holds es (regions a) (left a) := by
  have hall := h.of_apart hd (forall₂_flatMap hin) hi
  rwa [List.forall₂_map_right_iff, List.forall₂_same] at hall

theorem filter_write {key : String} {value : Bytes} {l : List (String × Bytes)}
    (h : region key = false) :
    (Entries.write key value l).filter (region ·.1) = l.filter (region ·.1) := by
  induction l with
  | nil => simp [Entries.write, h]
  | cons e l ih =>
    unfold Entries.write
    split
    · next he => simp [h, he]
    · rw [List.filter_cons, List.filter_cons, ih]

/-- What lies below a path is still there in its own record. -/
theorem extract {path : String} (h : Holds es region xs)
    (hb : ∀ k, region k = true → Below path k) (hh : region Path.hint = false) :
    Holds (es.extract path) region xs := by
  have hsub : (es.filter (Text.beginsWith (Path.subtreeStart path))).toList.filter (region ·.1) =
      xs := by
    rw [← h, Entries.filter, List.filter_filter]
    refine List.filter_congr fun e _ => ?_
    cases he : region e.1 with
    | false => rfl
    | true => rw [Path.beginsWith_subtreeStart_iff.2 (hb _ he), Bool.and_self]
  unfold Holds Entries.extract
  dsimp only
  cases ht : es.get? (Path.hintOf path) with
  | none => exact hsub
  | some type =>
    dsimp only
    rw [Entries.toList_put (by decide) (Entries.ne_empty_of_get? ht).2, filter_write hh, hsub]

end Holds

/-! ## Pairs with a value -/

/-- The pairs with a value, which are the ones that are stored. -/
def filled (xs : List (String × Bytes)) : List (String × Bytes) := xs.filter (!·.2.isEmpty)

theorem mem_filled_iff {xs : List (String × Bytes)} {x : String × Bytes} :
    x ∈ filled xs ↔ x ∈ xs ∧ x.2 ≠ [] := by
  simp [filled]

theorem filled_append (xs ys : List (String × Bytes)) :
    filled (xs ++ ys) = filled xs ++ filled ys := List.filter_append _ _

theorem filled_flatMap {α : Type} (as : List α) (left : α → List (String × Bytes)) :
    filled (as.flatMap left) = as.flatMap fun a => filled (left a) := by
  rw [List.flatMap, filled, List.filter_flatten, List.map_map]
  rfl

theorem Tidy.filled_eq {xs : List (String × Bytes)} (h : Tidy xs) : FlatGraph.filled xs = xs :=
  List.filter_eq_self.2 (by simpa using h.filled)

theorem tidy_filled_singleton (x : String × Bytes) : Tidy (filled [x]) := by
  unfold filled
  cases h : x.2.isEmpty with
  | true => simpa [h] using Tidy.nil
  | false => simpa [h] using Tidy.singleton (by simpa using h)

theorem putAll_filled (es : Entries) (xs : List (String × Bytes)) :
    es.putAll (filled xs) = es.putAll xs := by
  induction xs generalizing es with
  | nil => rfl
  | cons x xs ih =>
    rw [filled, List.filter_cons]
    split
    · exact ih _
    · next hx =>
      have hempty : x.2 = [] := by simpa using hx
      have hput : es.putAll (x :: xs) = es.putAll xs := by
        show (es.put x.1 x.2).putAll xs = _
        rw [Entries.put_of_empty (.inr hempty)]
      rw [hput]
      exact ih es

/-- A record of pairs that are all different holds those with a value, in their order. -/
theorem toList_putAll_of_tidy {xs : List (String × Bytes)} (ht : Tidy (filled xs))
    (hk : ∀ x ∈ xs, x.1 ≠ "") : (Entries.empty.putAll xs).toList = filled xs := by
  rw [← putAll_filled]
  refine Entries.toList_putAll ht.distinct fun x hx => ⟨?_, ht.filled x hx⟩
  exact hk x (mem_filled_iff.1 hx).1

/-! ## Regions of paths -/

/-- Whether a key lies in the region of a path. -/
def inRegion (path key : String) : Bool := decide (Within path key)

theorem inRegion_iff {path key : String} : inRegion path key = true ↔ Within path key :=
  decide_eq_true_iff

theorem apart_properties {ps : List Property} (base : String)
    (hn : ∀ p ∈ ps, Path.IsName p.name) (hu : (ps.map (·.name)).Nodup) :
    Apart (fun p : Property => inRegion (Path.join base p.name)) ps := by
  rw [List.Nodup, List.pairwise_map] at hu
  refine hu.imp_of_mem fun {p q} hp hq hpq k hk => ?_
  rw [← Bool.not_eq_true]
  intro hk'
  exact hpq (Path.join_inj_of_within (hn p hp).no_dot (hn q hq).no_dot (inRegion_iff.1 hk)
    (inRegion_iff.1 hk'))

/-- Whether a key belongs to a value of a declared type at a path. -/
def covers (type : TypeRef) (reference : Bool) (path key : String) : Bool :=
  if Read.isLeaf type reference then key == path else inRegion path key

theorem covers_leaf_iff {type : TypeRef} {reference : Bool} {path key : String}
    (h : Read.isLeaf type reference = true) :
    covers type reference path key = true ↔ key = path := by
  rw [covers, h, if_pos rfl, beq_iff_eq]

theorem covers_nested_iff {type : TypeRef} {reference : Bool} {path key : String}
    (h : Read.isLeaf type reference = false) :
    covers type reference path key = true ↔ Within path key := by
  rw [covers, h, if_neg Bool.false_ne_true, inRegion_iff]

theorem within_of_covers {type : TypeRef} {reference : Bool} {path key : String}
    (h : covers type reference path key = true) : Within path key := by
  cases hl : Read.isLeaf type reference with
  | true => exact .inl ((covers_leaf_iff hl).1 h)
  | false => exact (covers_nested_iff hl).1 h

theorem Entries.le_longestKey {es : Entries} {e : String × Bytes} (h : e ∈ es.toList) :
    e.1.length ≤ es.longestKey := by
  have hmax : ∀ (l : List Nat) (m : Nat), m ≤ l.foldl max m ∧ ∀ n ∈ l, n ≤ l.foldl max m := by
    intro l
    induction l with
    | nil => simp
    | cons a l ih =>
      intro m
      obtain ⟨hm, hl⟩ := ih (max m a)
      refine ⟨le_trans (le_max_left m a) hm, List.forall_mem_cons.2 ⟨?_, hl⟩⟩
      exact le_trans (le_max_right m a) hm
  exact (hmax _ 0).2 _ (List.mem_map.2 ⟨e, h, rfl⟩)

/-- No key is empty. -/
theorem Entries.longestKey_pos {es : Entries} (h : es.size ≠ 0) : 0 < es.longestKey := by
  obtain ⟨e, he⟩ := List.exists_mem_of_length_pos (Nat.pos_of_ne_zero h)
  refine lt_of_lt_of_le ?_ (le_longestKey he)
  exact Nat.pos_of_ne_zero fun h0 => (es.filled e he).1 (String.length_eq_zero_iff.1 h0)

end FlatGraph
