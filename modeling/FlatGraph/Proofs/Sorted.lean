import FlatGraph.Proofs.Lists
import FlatGraph.Sorted
import Mathlib.Data.List.Induction
import Mathlib.Data.List.Perm.Basic

/-!
# Sorted lists as sets and maps

A sorted list is seen through its members, a sorted list of pairs through what it has at a key.
Both views determine the list (`eq_of_mem_iff`, `eq_of_lookup`), so that each operation is
described by what it does to the view, and by that it keeps the order.
-/

namespace FlatGraph.Sorted

variable {α β : Type} [DecidableEq α] [LT α] [DecidableLT α]

/-! ## Sets -/

theorem mem_insert {a b : α} {l : List α} : b ∈ insert a l ↔ b = a ∨ b ∈ l := by
  induction l with
  | nil => simp [insert]
  | cons c l ih =>
    unfold insert
    by_cases hac : a = c
    · simp [hac]
    · by_cases hlt : a < c
      · simp [hac, hlt]
      · simp only [hac, hlt, if_false, List.mem_cons, ih]
        exact or_left_comm

theorem mem_foldl_insert {a : α} {l acc : List α} :
    a ∈ l.foldl (fun bs a => insert a bs) acc ↔ a ∈ acc ∨ a ∈ l := by
  induction l generalizing acc with
  | nil => simp
  | cons b l ih =>
    rw [List.foldl_cons, ih, mem_insert, List.mem_cons]
    tauto

theorem mem_ofList {a : α} {l : List α} : a ∈ ofList l ↔ a ∈ l := by
  rw [ofList, mem_foldl_insert]
  simp

section Order

variable [Trans (α := α) (· < ·) (· < ·) (· < ·)] [Std.Trichotomous (α := α) (· < ·)]

theorem pairwise_insert (a : α) {l : List α} (h : l.Pairwise (· < ·)) :
    (insert a l).Pairwise (· < ·) := by
  induction l with
  | nil => simp [insert]
  | cons c l ih =>
    obtain ⟨hc, hl⟩ := List.pairwise_cons.1 h
    unfold insert
    by_cases hac : a = c
    · rwa [if_pos hac]
    rw [if_neg hac]
    by_cases hlt : a < c
    · rw [if_pos hlt]
      refine List.pairwise_cons.2 ⟨?_, h⟩
      intro b hb
      rcases List.mem_cons.1 hb with rfl | hb
      · exact hlt
      · exact Trans.trans hlt (hc b hb)
    · rw [if_neg hlt]
      refine List.pairwise_cons.2 ⟨?_, ih hl⟩
      intro b hb
      rcases mem_insert.1 hb with rfl | hb
      · exact (Std.Trichotomous.rel_or_eq_or_rel_swap.resolve_left hlt).resolve_left hac
      · exact hc b hb

theorem pairwise_foldl_insert (l : List α) {acc : List α} (h : acc.Pairwise (· < ·)) :
    (l.foldl (fun bs a => insert a bs) acc).Pairwise (· < ·) := by
  induction l generalizing acc with
  | nil => exact h
  | cons b l ih => exact ih (pairwise_insert b h)

theorem pairwise_ofList (l : List α) : (ofList l).Pairwise (· < ·) := pairwise_foldl_insert l .nil

end Order

section Unique

variable [Std.Asymm (α := α) (· < ·)]

omit [DecidableEq α] [DecidableLT α] in
theorem nodup_of_pairwise {l : List α} (h : l.Pairwise (· < ·)) : l.Nodup := by
  refine h.imp ?_
  rintro a _ hab rfl
  exact Std.Asymm.asymm a a hab hab

omit [DecidableEq α] [DecidableLT α] in
/-- A sorted list is determined by its members. -/
theorem eq_of_mem_iff {as bs : List α} (ha : as.Pairwise (· < ·)) (hb : bs.Pairwise (· < ·))
    (h : ∀ a, a ∈ as ↔ a ∈ bs) : as = bs := by
  refine List.Perm.eq_of_pairwise ?_ ha hb ?_
  · intro a b _ _ hab hba
    exact absurd hba (Std.Asymm.asymm a b hab)
  · exact (List.perm_ext_iff_of_nodup (nodup_of_pairwise ha) (nodup_of_pairwise hb)).2 h

end Unique

/-! ## Maps -/

theorem map_fst_put (key : α) (value : β) (l : List (α × β)) :
    (put key value l).map Prod.fst = insert key (l.map Prod.fst) := by
  induction l with
  | nil => rfl
  | cons e l ih =>
    unfold put insert
    by_cases hk : key = e.1
    · simp [hk]
    · by_cases hlt : key < e.1
      · simp [hk, hlt]
      · simp [hk, hlt, ih]

theorem lookup_put [BEq α] [LawfulBEq α] (key : α) (value : β) (l : List (α × β)) (k : α) :
    (put key value l).lookup k = if k = key then some value else l.lookup k := by
  induction l with
  | nil => exact Lists.lookup_cons_eq _ _ _ _
  | cons e l ih =>
    obtain ⟨a, b⟩ := e
    unfold put
    dsimp only
    split_ifs <;> grind [Lists.lookup_cons_eq]

omit [LT α] [DecidableLT α] in
theorem map_fst_erase [BEq α] [LawfulBEq α] (key : α) (l : List (α × β)) :
    (erase key l).map Prod.fst = (l.map Prod.fst).erase key := by
  induction l with
  | nil => rfl
  | cons e l ih =>
    show (List.eraseP _ (e :: l)).map Prod.fst = _
    rw [List.eraseP_cons, List.map_cons, List.erase_cons]
    by_cases hk : e.1 = key
    · simp [hk]
    · simp only [hk, decide_false, beq_eq_false_iff_ne.2 hk, ← ih, erase]
      rfl

omit [LT α] [DecidableLT α] in
theorem lookup_erase [BEq α] [LawfulBEq α] {l : List (α × β)} (h : (l.map Prod.fst).Nodup)
    (key k : α) :
    (erase key l).lookup k = if k = key then none else l.lookup k := by
  have hnd : ((erase key l).map Prod.fst).Nodup := by
    rw [map_fst_erase]
    exact h.erase key
  by_cases hk : k = key
  · rw [if_pos hk, Lists.lookup_eq_none_iff, map_fst_erase, hk]
    exact h.not_mem_erase
  · rw [if_neg hk]
    ext v
    rw [Lists.lookup_eq_some_iff hnd, Lists.lookup_eq_some_iff h, erase]
    exact List.mem_eraseP_of_neg (by simpa using hk)

theorem ofEntries_append (es fs : List (α × β)) :
    ofEntries (es ++ fs) = fs.foldl (fun m e => put e.1 e.2 m) (ofEntries es) := List.foldl_append

/-- Where the pairs agree on what is at a key, the map of them has it there. -/
theorem lookup_ofEntries_eq_some_iff [BEq α] [LawfulBEq α] {es : List (α × β)}
    (h : ∀ k v w, (k, v) ∈ es → (k, w) ∈ es → v = w) {k : α} {v : β} :
    (ofEntries es).lookup k = some v ↔ (k, v) ∈ es := by
  induction es using List.reverseRecOn generalizing v with
  | nil => simp [ofEntries]
  | append_singleton es e ih =>
    have hes : ∀ k v w, (k, v) ∈ es → (k, w) ∈ es → v = w := fun k v w hv hw =>
      h k v w (List.mem_append_left _ hv) (List.mem_append_left _ hw)
    rw [ofEntries_append]
    show (put e.1 e.2 (ofEntries es)).lookup k = some v ↔ _
    rw [lookup_put, List.mem_append, List.mem_singleton]
    by_cases hk : k = e.1
    · subst hk
      rw [if_pos rfl, Option.some.injEq]
      constructor
      · rintro rfl
        exact Or.inr rfl
      · rintro (hm | he)
        · exact h _ _ _ (List.mem_append_right _ (List.mem_singleton_self e))
            (List.mem_append_left _ hm)
        · rw [← he]
    · rw [if_neg hk, ih hes]
      have hne : (k, v) ≠ e := fun he => hk (congrArg Prod.fst he)
      simp [hne]

section Order

variable [Trans (α := α) (· < ·) (· < ·) (· < ·)] [Std.Trichotomous (α := α) (· < ·)]

theorem pairwise_ofEntries (es : List (α × β)) :
    ((ofEntries es).map Prod.fst).Pairwise (· < ·) := by
  induction es using List.reverseRecOn with
  | nil => exact .nil
  | append_singleton es e ih =>
    rw [ofEntries_append]
    show ((put e.1 e.2 (ofEntries es)).map Prod.fst).Pairwise (· < ·)
    rw [map_fst_put]
    exact pairwise_insert _ ih

end Order

omit [DecidableEq α] [DecidableLT α] in
/-- A sorted map is determined by what it has at each key. -/
theorem eq_of_lookup [BEq α] [LawfulBEq α] [Std.Asymm (α := α) (· < ·)]
    {as bs : List (α × β)}
    (ha : (as.map Prod.fst).Pairwise (· < ·)) (hb : (bs.map Prod.fst).Pairwise (· < ·))
    (h : ∀ k, as.lookup k = bs.lookup k) : as = bs := by
  have hna := nodup_of_pairwise ha
  have hnb := nodup_of_pairwise hb
  have hmem : ∀ e, e ∈ as ↔ e ∈ bs := by
    rintro ⟨k, v⟩
    rw [← Lists.lookup_eq_some_iff hna, ← Lists.lookup_eq_some_iff hnb, h]
  refine List.Perm.eq_of_pairwise ?_ (List.pairwise_map.1 ha) (List.pairwise_map.1 hb) ?_
  · intro a b _ _ hab hba
    exact absurd hba (Std.Asymm.asymm _ _ hab)
  · exact (List.perm_ext_iff_of_nodup (.of_map _ hna) (.of_map _ hnb)).2 hmem

/-- The map of pairs with distinct keys is the pairs themselves, once they are sorted. -/
theorem ofEntries_eq_of_perm [BEq α] [LawfulBEq α] [Std.Asymm (α := α) (· < ·)]
    [Trans (α := α) (· < ·) (· < ·) (· < ·)] [Std.Trichotomous (α := α) (· < ·)]
    {es fs : List (α × β)} (hp : fs.Perm es) (hs : (fs.map Prod.fst).Pairwise (· < ·)) :
    ofEntries es = fs := by
  have hfs := nodup_of_pairwise hs
  have hes : (es.map Prod.fst).Nodup := (hp.map Prod.fst).nodup_iff.1 hfs
  refine eq_of_lookup (pairwise_ofEntries es) hs fun k => ?_
  ext v
  have hagree : ∀ k v w, (k, v) ∈ es → (k, w) ∈ es → v = w := fun k v w hv hw =>
    congrArg Prod.snd (List.inj_on_of_nodup_map hes hv hw rfl)
  rw [lookup_ofEntries_eq_some_iff hagree, Lists.lookup_eq_some_iff hfs, hp.mem_iff]

end FlatGraph.Sorted
