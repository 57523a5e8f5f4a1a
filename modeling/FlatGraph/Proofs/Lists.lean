import Mathlib.Data.List.Forall2
import Mathlib.Data.List.Induction
import Mathlib.Data.List.Nodup

/-!
# Lists

What the other modules need about lists that are related member by member, about the first
occurrences in a list, and about what a list of pairs has at a key.
-/

namespace FlatGraph.Lists

variable {α β : Type} {R S : α → β → Prop} {as : List α} {bs : List β}

/-! ## Lists related member by member -/

theorem exists_forall₂ (h : ∀ a ∈ as, ∃ b, R a b) : ∃ bs, List.Forall₂ R as bs := by
  induction as with
  | nil => exact ⟨[], .nil⟩
  | cons a as ih =>
    obtain ⟨b, hb⟩ := h a List.mem_cons_self
    obtain ⟨bs, hbs⟩ := ih fun a ha => h a (List.mem_cons_of_mem _ ha)
    exact ⟨b :: bs, .cons hb hbs⟩

theorem exists_left_of_mem (h : List.Forall₂ R as bs) {b : β} (hb : b ∈ bs) :
    ∃ a ∈ as, R a b := by
  induction h with
  | nil => cases hb
  | cons hr _ ih =>
    rcases List.mem_cons.1 hb with rfl | hb
    · exact ⟨_, List.mem_cons_self, hr⟩
    · obtain ⟨a, ha, hr⟩ := ih hb
      exact ⟨a, List.mem_cons_of_mem _ ha, hr⟩

theorem exists_right_of_mem (h : List.Forall₂ R as bs) {a : α} (ha : a ∈ as) :
    ∃ b ∈ bs, R a b := exists_left_of_mem h.flip ha

theorem forall₂_imp_mem (h : List.Forall₂ R as bs) (hi : ∀ a ∈ as, ∀ b ∈ bs, R a b → S a b) :
    List.Forall₂ S as bs := by
  induction h with
  | nil => exact .nil
  | cons hr _ ih =>
    refine .cons (hi _ List.mem_cons_self _ List.mem_cons_self hr) (ih fun a ha b hb => ?_)
    exact hi a (List.mem_cons_of_mem _ ha) b (List.mem_cons_of_mem _ hb)

theorem forall₂_and (h : List.Forall₂ R as bs) (h' : List.Forall₂ S as bs) :
    List.Forall₂ (fun a b => R a b ∧ S a b) as bs := by
  induction h with
  | nil => exact .nil
  | cons hr _ ih =>
    cases h' with
    | cons hs h' => exact .cons ⟨hr, hs⟩ (ih h')

theorem forall₂_trans {γ : Type} {S : β → γ → Prop} {T : α → γ → Prop} {cs : List γ}
    (h : List.Forall₂ R as bs) (h' : List.Forall₂ S bs cs)
    (hi : ∀ a ∈ as, ∀ b ∈ bs, ∀ c ∈ cs, R a b → S b c → T a c) : List.Forall₂ T as cs := by
  induction h generalizing cs with
  | nil =>
    cases h'
    exact .nil
  | cons hr _ ih =>
    cases h' with
    | cons hs h' =>
      refine .cons (hi _ List.mem_cons_self _ List.mem_cons_self _ List.mem_cons_self hr hs)
        (ih h' fun a ha b hb c hc => ?_)
      exact hi a (List.mem_cons_of_mem _ ha) b (List.mem_cons_of_mem _ hb) c
        (List.mem_cons_of_mem _ hc)

theorem exists_forall₂_of_forall₂ {γ : Type} {S : α → γ → Prop} {T : β → γ → Prop}
    (h : List.Forall₂ R as bs) (hs : ∀ a ∈ as, ∀ b, R a b → ∃ c, S a c ∧ T b c) :
    ∃ cs, List.Forall₂ S as cs ∧ List.Forall₂ T bs cs := by
  induction h with
  | nil => exact ⟨[], .nil, .nil⟩
  | cons hr _ ih =>
    obtain ⟨c, hsc, htc⟩ := hs _ List.mem_cons_self _ hr
    obtain ⟨cs, hscs, htcs⟩ := ih fun a ha => hs a (List.mem_cons_of_mem _ ha)
    exact ⟨c :: cs, .cons hsc hscs, .cons htc htcs⟩

theorem map_eq_map_of_forall₂ {γ : Type} {f : α → γ} {g : β → γ} (h : List.Forall₂ R as bs)
    (hfg : ∀ a b, R a b → f a = g b) : as.map f = bs.map g := by
  induction h with
  | nil => rfl
  | cons hr _ ih => rw [List.map_cons, List.map_cons, hfg _ _ hr, ih]

theorem eq_map_of_forall₂ {f : α → β} (h : List.Forall₂ R as bs)
    (hf : ∀ a ∈ as, ∀ b, R a b → b = f a) : bs = as.map f := by
  have hall : List.Forall₂ (fun a b => f a = b) as bs :=
    forall₂_imp_mem h fun a ha b _ hab => (hf a ha b hab).symm
  rw [map_eq_map_of_forall₂ hall fun _ _ h => h, List.map_id']

/-- If as many members hold a value as there are, all of them do. -/
theorem eq_map_some_of_length_le {l : List (Option α)} (h : l.length ≤ (l.filterMap id).length) :
    l = (l.filterMap id).map some := by
  induction l with
  | nil => rfl
  | cons a? l ih =>
    cases a? with
    | none =>
      have := List.length_filterMap_le id l
      simp only [List.filterMap_cons_none (f := id) (a := none) rfl, List.length_cons] at h
      omega
    | some a =>
      rw [List.filterMap_cons_some (f := id) (b := a) rfl, List.length_cons, List.length_cons] at h
      rw [List.filterMap_cons_some (f := id) (b := a) rfl, List.map_cons,
        ← ih (Nat.le_of_succ_le_succ h)]

/-! ## Members that are left out -/

theorem flatMap_filter_of_nil {c : α → Bool} {f : α → List β}
    (h : ∀ a ∈ as, c a = false → f a = []) : (as.filter c).flatMap f = as.flatMap f := by
  induction as with
  | nil => rfl
  | cons a as ih =>
    have hrest := ih fun b hb => h b (List.mem_cons_of_mem _ hb)
    rw [List.filter_cons, List.flatMap_cons]
    split
    · rw [List.flatMap_cons, hrest]
    · next hc => rw [h a List.mem_cons_self (by simpa using hc), List.nil_append, hrest]

theorem filterMap_filter_of_none {c : α → Bool} {f : α → Option β}
    (h : ∀ a ∈ as, c a = false → f a = none) : (as.filter c).filterMap f = as.filterMap f := by
  rw [List.filterMap_filter]
  refine List.filterMap_congr fun a ha => ?_
  split
  · rfl
  · next hc => exact (h a ha (by simpa using hc)).symm

/-! ## Sorting -/

/-- Sorted by a number, the members have ascending numbers. -/
theorem pairwise_mergeSort (f : α → Nat) (as : List α) :
    (as.mergeSort fun a b => f a ≤ f b).Pairwise fun a b => f a ≤ f b := by
  refine (List.pairwise_mergeSort ?_ ?_ as).imp fun h => of_decide_eq_true h
  · intro a b c hab hbc
    exact decide_eq_true (Nat.le_trans (of_decide_eq_true hab) (of_decide_eq_true hbc))
  · intro a b
    simpa only [Bool.or_eq_true, decide_eq_true_iff] using Nat.le_total (f a) (f b)

/-! ## First occurrences -/

theorem nodup_eraseDups [DecidableEq α] (l : List α) : l.eraseDups.Nodup := by
  match l with
  | [] => exact List.nodup_nil
  | a :: as =>
    rw [List.eraseDups_cons, List.nodup_cons]
    have : (as.filter (!· == a)).length ≤ as.length := List.length_filter_le _ _
    exact ⟨by simp [List.mem_eraseDups], nodup_eraseDups _⟩
termination_by l.length
decreasing_by exact Nat.lt_succ_of_le this

theorem eraseDups_concat [BEq α] [LawfulBEq α] (l : List α) (a : α) :
    (l ++ [a]).eraseDups = if a ∈ l then l.eraseDups else l.eraseDups ++ [a] := by
  rw [List.eraseDups_append]
  split
  · next h => simp [List.removeAll, h]
  · next h => simp [List.removeAll, h, List.eraseDups_cons]

theorem eraseDups_filter [BEq α] [LawfulBEq α] (l : List α) (p : α → Bool) :
    (l.filter p).eraseDups = l.eraseDups.filter p := by
  induction l using List.reverseRecOn with
  | nil => rfl
  | append_singleton l a ih =>
    rw [List.filter_append, eraseDups_concat]
    by_cases hp : p a = true
    · rw [List.filter_cons_of_pos hp, List.filter_nil, eraseDups_concat, ih]
      by_cases ha : a ∈ l
      · rw [if_pos (List.mem_filter.2 ⟨ha, hp⟩), if_pos ha]
      · rw [if_neg fun h => ha (List.mem_filter.1 h).1, if_neg ha, List.filter_append,
          List.filter_cons_of_pos hp, List.filter_nil]
    · rw [List.filter_cons_of_neg hp, List.filter_nil, List.append_nil, ih]
      split
      · rfl
      · rw [List.filter_append, List.filter_cons_of_neg hp, List.filter_nil, List.append_nil]

/-- What is found in a list without repetitions stands in the order in which it comes up first. -/
theorem pairwise_findIdx_eraseDups [BEq β] [LawfulBEq β] (l : List α) (f : α → Option β) :
    (l.filterMap f).eraseDups.Pairwise fun b c =>
      l.findIdx (f · == some b) < l.findIdx (f · == some c) := by
  induction l using List.reverseRecOn with
  | nil => exact .nil
  | append_singleton l a ih =>
    -- what was found in `l` comes up first where it did there
    have hfound : ∀ b ∈ (l.filterMap f).eraseDups, l.findIdx (f · == some b) < l.length ∧
        (l ++ [a]).findIdx (f · == some b) = l.findIdx (f · == some b) := by
      intro b hb
      obtain ⟨c, hc, hcb⟩ := List.mem_filterMap.1 (List.mem_eraseDups.1 hb)
      have hlt : l.findIdx (f · == some b) < l.length :=
        List.findIdx_lt_length.2 ⟨c, hc, beq_iff_eq.2 hcb⟩
      exact ⟨hlt, by rw [List.findIdx_append, if_pos hlt]⟩
    have hold : (l.filterMap f).eraseDups.Pairwise fun b c =>
        (l ++ [a]).findIdx (f · == some b) < (l ++ [a]).findIdx (f · == some c) :=
      ih.imp_of_mem fun {b c} hb hc h => by rwa [(hfound b hb).2, (hfound c hc).2]
    rw [List.filterMap_append]
    cases ha : f a with
    | none => simpa [ha] using hold
    | some b =>
      rw [List.filterMap_cons_some ha, List.filterMap_nil, eraseDups_concat]
      split
      · exact hold
      · next hb =>
        refine List.pairwise_append.2 ⟨hold, List.pairwise_singleton _ _, fun c hc d hd => ?_⟩
        obtain rfl := List.mem_singleton.1 hd
        have hnew : ¬ l.findIdx (f · == some d) < l.length := fun hlt => by
          obtain ⟨e, he, hed⟩ := List.findIdx_lt_length.1 hlt
          exact hb (List.mem_filterMap.2 ⟨e, he, beq_iff_eq.1 hed⟩)
        rw [(hfound c hc).2, List.findIdx_append, if_neg hnew]
        exact Nat.lt_of_lt_of_le (hfound c hc).1 (Nat.le_add_left _ _)

/-! ## Looking up -/

variable [BEq α] [LawfulBEq α]

theorem lookup_cons_eq [DecidableEq α] (a k : α) (b : β) (l : List (α × β)) :
    ((a, b) :: l).lookup k = if k = a then some b else l.lookup k := by
  rw [List.lookup_cons]
  split_ifs with h
  · simp [h]
  · simp [beq_false_of_ne h]

theorem lookup_eq_some_iff {l : List (α × β)}
    (h : (l.map Prod.fst).Nodup) {k : α} {v : β} : l.lookup k = some v ↔ (k, v) ∈ l := by
  classical
  induction l with
  | nil => simp
  | cons e l ih =>
    obtain ⟨a, b⟩ := e
    rw [List.map_cons, List.nodup_cons] at h
    rw [lookup_cons_eq]
    split_ifs with hk
    · subst hk
      have : (k, v) ∉ l := fun hm => h.1 (List.mem_map.2 ⟨_, hm, rfl⟩)
      simp [this, eq_comm]
    · simp [ih h.2, hk]

theorem lookup_eq_none_iff {l : List (α × β)} {k : α} :
    l.lookup k = none ↔ k ∉ l.map Prod.fst := by
  classical
  induction l with
  | nil => simp
  | cons e l ih =>
    obtain ⟨a, b⟩ := e
    rw [lookup_cons_eq]
    split_ifs with hk
    · simp [hk]
    · simp [ih, hk]

theorem lookup_filter (l : List (α × β)) (p : α → Bool) (k : α) :
    (l.filter (p ·.1)).lookup k = if p k then l.lookup k else none := by
  classical
  induction l with
  | nil => simp
  | cons e l ih =>
    obtain ⟨a, b⟩ := e
    rw [lookup_cons_eq]
    rw [List.filter_cons]
    by_cases hp : p a = true
    · rw [if_pos hp, lookup_cons_eq, ih]
      by_cases hk : k = a
      · rw [if_pos hk, if_pos hk, if_pos (hk ▸ hp)]
      · rw [if_neg hk, if_neg hk]
    · rw [if_neg hp, ih]
      by_cases hk : k = a
      · rw [if_neg (hk ▸ hp), if_neg (hk ▸ hp)]
      · rw [if_neg hk]

end FlatGraph.Lists
