import FlatGraph.Proofs.Entries
import FlatGraph.Proofs.Outcome
import FlatGraph.Proofs.Text.Utf8
import Mathlib.Logic.Function.Basic

/-!
# Records over all their histories

A record is empty, or made of a list, or comes of another one by putting a value or by extracting
what lies below a path (`Record.History`). What was written to it (`History.writes`) are the values
that were put, without those that are ignored. To what is extracted, that was written which had
been written below the path before, and then the type hint.

**Theorem (`Record.History.settles`).** A record holds each key that was written to it once, at the
place where it was first written, and with the value that was written last (`Entries.Settles`). Its
bytes read back as the same entries in the same order. Two records are equal exactly if they agree
on every key, so that equality is an equivalence that does not notice the order.

Entries can also be kept in a row with a position for each key beside it, in which to look it up
(`Positioned`). Over each history, the positions are those of the keys in the row, and the row and
what is looked up through them are the same as here (`Positioned.Mirrors`).
-/

namespace FlatGraph

open FlatGraph.Path (Below)

variable {es : Entries} {key : String} {value : Bytes}

/-! ## What settles of writes -/

namespace Entries

variable {writes : List (String × Bytes)}

/-- The pairs that are not ignored when they are put. -/
def effective (xs : List (String × Bytes)) : List (String × Bytes) :=
  xs.filter fun e => e.1 ≠ "" ∧ e.2 ≠ []

theorem effective_singleton_of (hk : key ≠ "") (hv : value ≠ []) :
    effective [(key, value)] = [(key, value)] := by
  simp [effective, hk, hv]

theorem effective_singleton_of_empty (h : key = "" ∨ value = []) :
    effective [(key, value)] = [] := by
  rcases h with rfl | rfl <;> simp [effective]

/-- Of what was written, the entries have each key once, where it was first written, with the value
that was written last. -/
structure Settles (writes : List (String × Bytes)) (es : Entries) : Prop where
  keys : es.toList.map Prod.fst = (writes.map Prod.fst).eraseDups
  values : ∀ key, es.get? key = writes.reverse.lookup key

namespace Settles

theorem empty : Settles [] .empty := ⟨rfl, fun _ => rfl⟩

theorem write (h : Settles writes es) (hk : key ≠ "") (hv : value ≠ []) :
    Settles (writes ++ [(key, value)]) (es.put key value) where
  keys := by
    rw [toList_put hk hv, map_fst_write, h.keys, List.map_append, List.map_singleton,
      Lists.eraseDups_concat]
    simp only [List.mem_eraseDups]
  values k := by
    rw [get?_put, h.values, List.reverse_append, List.reverse_singleton, List.singleton_append,
      Lists.lookup_cons_eq]
    exact if_congr (by simp [hk, hv]) rfl rfl

theorem put (h : Settles writes es) (key : String) (value : Bytes) :
    Settles (writes ++ effective [(key, value)]) (es.put key value) := by
  by_cases he : key = "" ∨ value = []
  · rwa [put_of_empty he, effective_singleton_of_empty he, List.append_nil]
  · obtain ⟨hk, hv⟩ := not_or.1 he
    rw [effective_singleton_of hk hv]
    exact h.write hk hv

theorem putAll (h : Settles writes es) (xs : List (String × Bytes)) :
    Settles (writes ++ effective xs) (es.putAll xs) := by
  induction xs using List.reverseRecOn with
  | nil =>
    rw [effective, List.filter_nil, List.append_nil]
    exact h
  | append_singleton xs x ih =>
    rw [putAll_append, effective, List.filter_append, ← List.append_assoc]
    exact ih.put x.1 x.2

theorem filter (h : Settles writes es) (p : String → Bool) :
    Settles (writes.filter (p ·.1)) (es.filter p) where
  keys := by
    have hmap (xs : List (String × Bytes)) :
        (xs.filter (p ·.1)).map Prod.fst = (xs.map Prod.fst).filter p := List.filter_map.symm
    rw [hmap, Lists.eraseDups_filter, ← h.keys]
    exact hmap es.toList
  values k := by
    rw [get?_filter, h.values, ← List.filter_reverse, Lists.lookup_filter]

/-- What is extracted was written below the path, and the hint of the path after it. -/
theorem extract (h : Settles writes es) (path : String) :
    Settles (writes.filter (Below path ·.1) ++
      ((writes.reverse.lookup (Path.hintOf path)).map (Path.hint, ·)).toList)
      (es.extract path) := by
  have hbelow : (fun e : String × Bytes => decide (Below path e.1)) =
      fun e => Text.beginsWith (Path.subtreeStart path) e.1 :=
    funext fun e => Bool.eq_iff_iff.2 (by
      rw [decide_eq_true_iff, Path.beginsWith_subtreeStart_iff])
  have hsub := h.filter (Text.beginsWith (Path.subtreeStart path))
  rw [hbelow, ← h.values]
  unfold Entries.extract
  cases hh : es.get? (Path.hintOf path) with
  | none => simpa using hsub
  | some type => exact hsub.write (by decide) (ne_empty_of_get? hh).2

end Settles

/-- Equality of entries is an equivalence. -/
theorem same_equivalence : Equivalence fun as bs : Entries => as.same bs = true where
  refl _ := same_iff.2 fun _ => rfl
  symm h := same_iff.2 fun key => (same_iff.1 h key).symm
  trans h h' := same_iff.2 fun key => (same_iff.1 h key).trans (same_iff.1 h' key)

end Entries

/-! ## Entries with their positions -/

/-- Entries in a row, with the position of each key beside it. -/
structure Positioned where
  data : List (String × Bytes) := []
  positions : String → Option Nat := fun _ => none

namespace Positioned

/-- Puts a value at the position of its key, or at the end, with the key's position taken down. -/
def put (x : Positioned) (key : String) (value : Bytes) : Positioned :=
  if key = "" ∨ value = [] then x
  else
    match x.positions key with
    | some i => { x with data := x.data.modify i fun e => (e.1, value) }
    | none =>
      { data := x.data ++ [(key, value)]
        positions := Function.update x.positions key (some x.data.length) }

/-- Puts the entries of a list one after another. -/
def putAll (x : Positioned) (xs : List (String × Bytes)) : Positioned :=
  xs.foldl (fun x e => x.put e.1 e.2) x

/-- The value at the position of a key. -/
def get? (x : Positioned) (key : String) : Option Bytes := do
  let i ← x.positions key
  let e ← x.data[i]?
  pure e.2

/-- What lies below a path, with the type hint of the path as a hint of its own. -/
def extract (x : Positioned) (path : String) : Positioned :=
  let sub := putAll {} (x.data.filter (Text.beginsWith (Path.subtreeStart path) ·.1))
  match x.get? (Path.hintOf path) with
  | some type => sub.put Path.hint type
  | none => sub

/-- The row holds the entries, and the positions are those of the keys in it. -/
structure Mirrors (x : Positioned) (es : Entries) : Prop where
  data : x.data = es.toList
  positions : ∀ key i, x.positions key = some i ↔ (x.data.map Prod.fst)[i]? = some key

/-- In a row without a key twice, a value is written at the position of its key. -/
theorem write_eq_modify {l : List (String × Bytes)} {i : Nat} (hd : (l.map Prod.fst).Nodup)
    (hi : (l.map Prod.fst)[i]? = some key) :
    Entries.write key value l = l.modify i fun e => (e.1, value) := by
  induction l generalizing i with
  | nil => simp at hi
  | cons e l ih =>
    rw [List.map_cons, List.nodup_cons] at hd
    cases i with
    | zero =>
      have he : e.1 = key := by simpa using hi
      rw [Entries.write, if_pos he, List.modify_zero_cons, he]
    | succ i =>
      have hi' : (l.map Prod.fst)[i]? = some key := by simpa using hi
      have he : e.1 ≠ key := fun he => hd.1 (he ▸ List.mem_of_getElem? hi')
      rw [Entries.write, if_neg he, ih hd.2 hi', List.modify_succ_cons]

theorem map_fst_modify (l : List (String × Bytes)) (i : Nat) (value : Bytes) :
    (l.modify i fun e => (e.1, value)).map Prod.fst = l.map Prod.fst := by
  induction l generalizing i with
  | nil => simp
  | cons e l ih => cases i <;> simp [ih]

namespace Mirrors

variable {x : Positioned}

theorem empty : Mirrors {} .empty := ⟨rfl, fun _ _ => by simp⟩

theorem get?_eq (h : x.Mirrors es) (key : String) : x.get? key = es.get? key := by
  have hdistinct : ∀ {i e}, x.data[i]? = some e → x.positions e.1 = some i := fun he =>
    (h.positions _ _).2 (by rw [List.getElem?_map, he]; rfl)
  ext v
  simp only [Positioned.get?, Option.bind_eq_bind, Option.bind_eq_some_iff, Option.pure_def,
    Option.some.injEq]
  rw [Entries.get?_eq_some_iff, ← h.data, List.mem_iff_getElem?]
  constructor
  · rintro ⟨i, hi, e, he, rfl⟩
    rw [h.positions, List.getElem?_map, he] at hi
    obtain rfl : e.1 = key := Option.some.inj hi
    exact ⟨i, he⟩
  · rintro ⟨i, hi⟩
    exact ⟨i, hdistinct hi, _, hi, rfl⟩

theorem put (h : x.Mirrors es) (key : String) (value : Bytes) :
    (x.put key value).Mirrors (es.put key value) := by
  by_cases he : key = "" ∨ value = []
  · rwa [Positioned.put, if_pos he, Entries.put_of_empty he]
  obtain ⟨hk, hv⟩ := not_or.1 he
  rw [Positioned.put, if_neg he]
  cases hp : x.positions key with
  | some i =>
    constructor
    · rw [Entries.toList_put hk hv, h.data,
        write_eq_modify es.distinct (h.data ▸ (h.positions key i).1 hp)]
    · intro k j
      rw [map_fst_modify]
      exact h.positions k j
  | none =>
    have hnew : key ∉ x.data.map Prod.fst := fun hm => by
      obtain ⟨i, hi⟩ := List.mem_iff_getElem?.1 hm
      cases hp.symm.trans ((h.positions key i).2 hi)
    constructor
    · rw [Entries.toList_put hk hv, Entries.write_of_not_mem (h.data ▸ hnew), h.data]
    · intro k j
      show Function.update x.positions key _ k = some j ↔
        ((x.data ++ [(key, value)]).map Prod.fst)[j]? = some k
      rw [List.map_append, List.map_singleton, List.getElem?_append, List.length_map]
      by_cases hkey : k = key
      · subst hkey
        rw [Function.update_self]
        split
        · next hj =>
          refine iff_of_false ?_ fun hm => hnew (List.mem_of_getElem? hm)
          rintro ⟨⟩
          exact absurd hj (Nat.lt_irrefl _)
        · next hj => grind
      · rw [Function.update_of_ne hkey, h.positions]
        split
        · rfl
        · next hj => grind

theorem putAll (h : x.Mirrors es) (xs : List (String × Bytes)) :
    (x.putAll xs).Mirrors (es.putAll xs) := by
  induction xs generalizing x es with
  | nil => exact h
  | cons e xs ih => exact ih (h.put e.1 e.2)

theorem extract (h : x.Mirrors es) (path : String) :
    (x.extract path).Mirrors (es.extract path) := by
  have hsub : (Positioned.putAll {}
      (x.data.filter (Text.beginsWith (Path.subtreeStart path) ·.1))).Mirrors
      (es.filter (Text.beginsWith (Path.subtreeStart path))) := by
    have hall := empty.putAll (es.filter (Text.beginsWith (Path.subtreeStart path))).toList
    rw [Entries.putAll_toList] at hall
    rw [h.data]
    exact hall
  unfold Positioned.extract Entries.extract
  rw [h.get?_eq]
  cases es.get? (Path.hintOf path) with
  | none => exact hsub
  | some type => exact hsub.put _ _

end Mirrors

end Positioned

namespace Record

/-! ## Histories -/

/-- How a record comes about. -/
inductive History where
  | new
  | ofRaw (xs : List (Bytes × Bytes))
  | ofTexts (xs : List (String × String))
  | put (before : History) (key : String) (value : Bytes)
  | extract (before : History) (path : String)

namespace History

/-- The record that comes about, if all keys are texts. -/
def record : History → Except Error Record
  | new => .ok {}
  | ofRaw xs => Record.ofRaw xs
  | ofTexts xs => .ok (Record.ofTexts xs)
  | put before key value => (·.put key value) <$> before.record
  | extract before path => (·.extract path) <$> before.record

/-- What was written to the record, without what is ignored. -/
def writes : History → List (String × Bytes)
  | new => []
  | ofRaw xs =>
    Entries.effective (xs.filterMap fun e => (Utf8.decode e.1).toOption.map (·, e.2))
  | ofTexts xs => Entries.effective (xs.map fun e => (e.1, Utf8.encode e.2))
  | put before key value => before.writes ++ Entries.effective [(key, value)]
  | extract before path =>
    before.writes.filter (Below path ·.1) ++
      ((before.writes.reverse.lookup (Path.hintOf path)).map (Path.hint, ·)).toList

/-- The record that comes about with positions. -/
def positioned : History → Except Error Positioned
  | new => .ok {}
  | ofRaw xs => xs.foldlM (fun x e => do pure (x.put (← keyOfRaw e.1) e.2)) {}
  | ofTexts xs => .ok (Positioned.putAll {} (xs.map fun e => (e.1, Utf8.encode e.2)))
  | put before key value => (·.put key value) <$> before.positioned
  | extract before path => (·.extract path) <$> before.positioned

end History

theorem keyOfRaw_eq_ok_iff {raw : Bytes} : keyOfRaw raw = .ok key ↔ Utf8.decode raw = .ok key := by
  rw [keyOfRaw]
  split
  · next h => simp [h]
  · next h => simp [h]

theorem ofRaw_eq_ok_iff {xs : List (Bytes × Bytes)} {r : Record} :
    ofRaw xs = .ok r ↔ ∃ ys : List (String × Bytes),
      List.Forall₂ (fun x y => Utf8.decode x.1 = .ok y.1 ∧ x.2 = y.2) xs ys ∧
      r = { entries := Entries.empty.putAll ys } := by
  have hpair : ∀ (x : Bytes × Bytes) (y : String × Bytes),
      (do pure (← keyOfRaw x.1, x.2) : Except Error _) = .ok y ↔
        Utf8.decode x.1 = .ok y.1 ∧ x.2 = y.2 := by
    intro x y
    rw [Outcome.bind_eq_ok_iff]
    constructor
    · rintro ⟨key, hk, hy⟩
      rw [Outcome.pure_eq_ok_iff] at hy
      exact ⟨hy ▸ keyOfRaw_eq_ok_iff.1 hk, hy ▸ rfl⟩
    · rintro ⟨hk, hy⟩
      exact ⟨y.1, keyOfRaw_eq_ok_iff.2 hk, Outcome.pure_eq_ok_iff.2 (by rw [hy])⟩
  rw [ofRaw, Outcome.bind_eq_ok_iff]
  simp only [Outcome.mapM_eq_ok_iff, hpair, Outcome.pure_eq_ok_iff, @eq_comm _ _ r]

/-- **The bytes of entries read back as the entries**, in their order. -/
theorem ofRaw_toRaw (es : Entries) : ofRaw es.toRaw = .ok { entries := es } := by
  refine ofRaw_eq_ok_iff.2 ⟨es.toList, ?_, by rw [Entries.putAll_toList]⟩
  rw [Entries.toRaw, List.forall₂_map_left_iff, List.forall₂_same]
  exact fun e _ => ⟨Utf8.decode_encode e.1, rfl⟩

namespace History

variable {h : History} {r : Record}

theorem settles_entries (hr : h.record = .ok r) : Entries.Settles h.writes r.entries := by
  induction h generalizing r with
  | new =>
    cases hr
    exact .empty
  | ofRaw xs =>
    obtain ⟨ys, hys, rfl⟩ := ofRaw_eq_ok_iff.1 hr
    have hdecoded : xs.filterMap (fun e => (Utf8.decode e.1).toOption.map (·, e.2)) = ys := by
      clear hr
      induction hys with
      | nil => rfl
      | cons hxy _ ih => rw [List.filterMap_cons, hxy.1, ih, hxy.2]; rfl
    rw [writes, hdecoded]
    exact Entries.Settles.empty.putAll ys
  | ofTexts xs =>
    cases hr
    exact Entries.Settles.empty.putAll _
  | put before key value ih =>
    obtain ⟨r, hb, rfl⟩ := Outcome.map_eq_ok_iff.1 hr
    exact (ih hb).put key value
  | extract before path ih =>
    obtain ⟨r, hb, rfl⟩ := Outcome.map_eq_ok_iff.1 hr
    exact (ih hb).extract path

theorem exists_positioned (hr : h.record = .ok r) :
    ∃ x, h.positioned = .ok x ∧ x.Mirrors r.entries := by
  induction h generalizing r with
  | new =>
    cases hr
    exact ⟨_, rfl, .empty⟩
  | ofRaw xs =>
    obtain ⟨ys, hys, rfl⟩ := ofRaw_eq_ok_iff.1 hr
    clear hr
    have hfold : ∀ {x es}, Positioned.Mirrors x es → ∃ x',
        xs.foldlM (fun x e => do pure (x.put (← keyOfRaw e.1) e.2)) x = .ok x' ∧
          x'.Mirrors (es.putAll ys) := by
      induction hys with
      | nil => exact fun hm => ⟨_, rfl, hm⟩
      | @cons e y xs ys hxy _ ih =>
        intro x es hm
        obtain ⟨x', hx', hm'⟩ := ih (hm.put y.1 y.2)
        refine ⟨x', ?_, hm'⟩
        rw [List.foldlM_cons, keyOfRaw_eq_ok_iff.2 hxy.1, hxy.2]
        exact hx'
    exact hfold .empty
  | ofTexts xs =>
    cases hr
    exact ⟨_, rfl, .putAll .empty _⟩
  | put before key value ih =>
    obtain ⟨r, hb, rfl⟩ := Outcome.map_eq_ok_iff.1 hr
    obtain ⟨x, hx, hm⟩ := ih hb
    exact ⟨_, by rw [positioned, hx]; rfl, hm.put key value⟩
  | extract before path ih =>
    obtain ⟨r, hb, rfl⟩ := Outcome.map_eq_ok_iff.1 hr
    obtain ⟨x, hx, hm⟩ := ih hb
    exact ⟨_, by rw [positioned, hx]; rfl, hm.extract path⟩

/-- **A record is the settled form of what was written to it**, over all histories. -/
theorem settles (hr : h.record = .ok r) :
    ((r.entries.toList.map Prod.fst).Nodup ∧ ∀ e ∈ r.entries.toList, e.1 ≠ "" ∧ e.2 ≠ []) ∧
    Entries.Settles h.writes r.entries ∧
    Record.ofRaw r.entries.toRaw = .ok { entries := r.entries } ∧
    (∀ (h' : History) (r' : Record), h'.record = .ok r' →
      (r.entries.same r'.entries = true ↔ ∀ key, r.entries.get? key = r'.entries.get? key) ∧
      (r.entries.same r'.entries = true ↔ r.entries.toList.Perm r'.entries.toList)) ∧
    (Equivalence fun as bs : Entries => as.same bs = true) ∧
    ∃ x, h.positioned = .ok x ∧ x.Mirrors r.entries ∧ ∀ key, x.get? key = r.entries.get? key := by
  obtain ⟨x, hx, hm⟩ := exists_positioned hr
  exact ⟨⟨r.entries.distinct, r.entries.filled⟩, settles_entries hr, ofRaw_toRaw r.entries,
    fun _ _ _ => ⟨Entries.same_iff, Entries.same_iff.trans Entries.perm_iff.symm⟩,
    Entries.same_equivalence, x, hx, hm, hm.get?_eq⟩

/-- An address whose city is put twice, and then once more with nothing in it. -/
def moved : History :=
  extract (put (put (put (ofTexts [("firstname", "rand"), ("address.city", "two rivers"),
    ("address._class", "Address")]) "address.country" (Utf8.encode "andor"))
    "address.city" (Utf8.encode "caemlyn")) "address.city" []) "address"

theorem settles_moved : ∃ r, moved.record = .ok r ∧
    r.entries.toList.map Prod.fst =
      ["address.city", "address._class", "address.country", "_class"] ∧
    r.entries.get? "address.city" = some (Utf8.encode "caemlyn") ∧
    ∃ r', Record.ofRaw r.entries.toRaw = .ok r' ∧ r.entries.same r'.entries = true := by
  obtain ⟨r, hr⟩ : ∃ r, moved.record = .ok r := ⟨_, rfl⟩
  obtain ⟨-, hsettles, hraw, -, hsame, -⟩ := settles hr
  exact ⟨r, hr, hsettles.keys.trans (by decide +kernel),
    (hsettles.values _).trans (by decide +kernel), _, hraw, hsame.refl _⟩

end History

end Record

end FlatGraph
