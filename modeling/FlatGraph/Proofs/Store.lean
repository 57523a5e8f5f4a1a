import FlatGraph.Proofs.Outcome
import FlatGraph.Proofs.Sorted
import FlatGraph.Store.Change

/-!
# The store as a map

An open store whose keys ascend (`Orderly`) is determined by what its keys hold (`ext`).

**Theorem (`changeAll_of_effects`).** A sequence of changes goes through if at each key those of
them that concern the key do, and then each key holds what those leave there.

A change looks at one key and changes what that key holds (`change_eq`), so that changes of
different keys do not see each other. The scan for the keys that begin with some bytes finds all
of them (`keysFrom_eq`): between two such keys there is no other one.
-/

namespace FlatGraph

namespace Store

/-! ## What keys hold -/

/-- The store is open, and its keys ascend. -/
structure Orderly (s : Store) : Prop where
  isOpen : s.isClosed = false
  ascending : s.keys.Pairwise (· < ·)

theorem Orderly.whenOpen {s : Store} (h : s.Orderly) {α : Type} (x : Except StoreError α) :
    s.whenOpen x = x := by
  simp [Store.whenOpen, h.isOpen]

theorem Orderly.hold {s : Store} (h : s.Orderly) (key : Bytes) (c : Content) :
    (s.hold key c).Orderly := by
  refine ⟨h.isOpen, ?_⟩
  show ((Sorted.put key c s.entries).map Prod.fst).Pairwise (· < ·)
  rw [Sorted.map_fst_put]
  exact Sorted.pairwise_insert key h.ascending

theorem Orderly.drop {s : Store} (h : s.Orderly) (key : Bytes) : (s.drop key).Orderly := by
  refine ⟨h.isOpen, ?_⟩
  show ((Sorted.erase key s.entries).map Prod.fst).Pairwise (· < ·)
  rw [Sorted.map_fst_erase]
  exact h.ascending.sublist List.erase_sublist

theorem content?_hold (s : Store) (key : Bytes) (c : Content) (k : Bytes) :
    (s.hold key c).content? k = if k = key then some c else s.content? k :=
  Sorted.lookup_put key c s.entries k

theorem content?_drop {s : Store} (h : s.Orderly) (key k : Bytes) :
    (s.drop key).content? k = if k = key then none else s.content? k :=
  Sorted.lookup_erase (Sorted.nodup_of_pairwise h.ascending) key k

theorem mem_keys_iff {s : Store} {key : Bytes} : key ∈ s.keys ↔ s.content? key ≠ none := by
  rw [Ne, content?, Lists.lookup_eq_none_iff, not_not, keys]

/-- An orderly store is determined by what its keys hold. -/
theorem ext {s t : Store} (hs : s.Orderly) (ht : t.Orderly)
    (h : ∀ key, s.content? key = t.content? key) : s = t := by
  have hentries := Sorted.eq_of_lookup hs.ascending ht.ascending h
  have hclosed := hs.isOpen.trans ht.isOpen.symm
  cases s
  cases t
  cases hentries
  cases hclosed
  rfl

/-- The content of a set with the given members: a set without members is not there. -/
def ofMembers (members : List Bytes) : Option Content :=
  if members = [] then none else some (.set members)

@[simp] theorem ofMembers_nil : ofMembers [] = none := rfl

theorem members_of_content? {s : Store} (h : s.Orderly) {key : Bytes} {members : List Bytes}
    (hk : s.content? key = ofMembers members) : s.members key = .ok members := by
  rw [Store.members, h.whenOpen, hk]
  by_cases hm : members = []
  · simp [hm]
  · simp [ofMembers, hm]

/-! ## Scans -/

theorem not_lt_of_isPrefix {start k : Bytes} (h : start <+: k) : ¬ k < start := by
  induction start generalizing k with
  | nil => simp
  | cons a s ih =>
    obtain ⟨t, rfl⟩ := h
    rw [List.cons_append, List.cons_lt_cons_iff]
    rintro (hlt | ⟨-, hlt⟩)
    · exact Std.Irrefl.irrefl a hlt
    · exact ih (List.prefix_append s t) hlt

/-- What lies between `start` and one of its extensions is an extension too. -/
theorem isPrefix_of_lt {start k l : Bytes} (hk : ¬ k < start) (hkl : k < l) (h : start <+: l) :
    start <+: k := by
  induction start generalizing k l with
  | nil => exact List.nil_prefix
  | cons a s ih =>
    obtain ⟨t, rfl⟩ := h
    cases k with
    | nil => exact absurd (List.nil_lt_cons a s) hk
    | cons b u =>
      rw [List.cons_append, List.cons_lt_cons_iff] at hkl
      rw [List.cons_lt_cons_iff, not_or] at hk
      rcases hkl with hlt | ⟨rfl, hlt⟩
      · exact absurd hlt hk.1
      · have hu : ¬ u < s := fun h => hk.2 ⟨rfl, h⟩
        exact List.cons_prefix_cons.2 ⟨rfl, ih hu hlt (List.prefix_append s t)⟩

theorem takeWhile_eq_filter {start : Bytes} {l : List Bytes} (h : l.Pairwise (· < ·))
    (hl : ∀ k ∈ l, ¬ k < start) :
    l.takeWhile start.isPrefixOf = l.filter start.isPrefixOf := by
  induction l with
  | nil => rfl
  | cons k l ih =>
    obtain ⟨hk, hlp⟩ := List.pairwise_cons.1 h
    by_cases hp : start <+: k
    · have hb := List.isPrefixOf_iff_prefix.2 hp
      rw [List.takeWhile_cons_of_pos hb, List.filter_cons_of_pos hb,
        ih hlp fun k hm => hl k (List.mem_cons_of_mem _ hm)]
    · have hb : ¬ start.isPrefixOf k = true := fun hb => hp (List.isPrefixOf_iff_prefix.1 hb)
      rw [List.takeWhile_cons_of_neg hb, List.filter_cons_of_neg hb, eq_comm,
        List.filter_eq_nil_iff]
      intro m hm hmp
      exact hp (isPrefix_of_lt (hl k List.mem_cons_self) (hk m hm)
        (List.isPrefixOf_iff_prefix.1 hmp))

theorem scan_eq_filter {start : Bytes} {l : List Bytes} (h : l.Pairwise (· < ·)) :
    (l.dropWhile (· < start)).takeWhile start.isPrefixOf = l.filter start.isPrefixOf := by
  induction l with
  | nil => rfl
  | cons k l ih =>
    obtain ⟨hk, hlp⟩ := List.pairwise_cons.1 h
    by_cases hlt : k < start
    · have hb : ¬ start.isPrefixOf k = true := fun hb =>
        not_lt_of_isPrefix (List.isPrefixOf_iff_prefix.1 hb) hlt
      rw [List.dropWhile_cons_of_pos (by simpa using hlt), List.filter_cons_of_neg hb, ih hlp]
    · rw [List.dropWhile_cons_of_neg (by simpa using hlt)]
      refine takeWhile_eq_filter h ?_
      intro m hm
      rcases List.mem_cons.1 hm with rfl | hm
      · exact hlt
      · exact fun hms => hlt (Trans.trans (hk m hm) hms)

/-- The scan finds the keys that begin with `start`. -/
theorem keysFrom_eq {s : Store} (h : s.Orderly) (start : Bytes) :
    s.keysFrom start = .ok (s.keys.filter start.isPrefixOf) := by
  rw [keysFrom, h.whenOpen, scan_eq_filter h.ascending]

end Store

/-! ## Changes -/

namespace Change

/-- The key that a change concerns. -/
def key : Change → Bytes
  | .putFields key _ => key
  | .delete key => key
  | .addMember key _ => key
  | .removeMember key _ => key

/-- What a change makes of what its key holds. -/
def effect : Change → Option Content → Except StoreError (Option Content)
  | .putFields key _, some (.set _) => .error (.notHash key)
  | .putFields _ fields, some (.hash old) =>
    .ok (some (.hash (fields.foldl (fun es f => Store.writeField f.1 f.2 es) old)))
  | .putFields _ fields, none =>
    .ok (some (.hash (fields.foldl (fun es f => Store.writeField f.1 f.2 es) [])))
  | .delete _, _ => .ok none
  | .addMember key _, some (.hash _) => .error (.notSet key)
  | .addMember _ member, some (.set old) => .ok (some (.set (Sorted.insert member old)))
  | .addMember _ member, none => .ok (some (.set [member]))
  | .removeMember key _, some (.hash _) => .error (.notSet key)
  | .removeMember _ member, some (.set old) => .ok (Store.ofMembers (old.erase member))
  | .removeMember _ _, none => .ok none

/-- What changes make of what a key holds. -/
def effects (k : Bytes) : List Change → Option Content → Except StoreError (Option Content)
  | [], c => .ok c
  | x :: xs, c => if x.key = k then x.effect c >>= effects k xs else effects k xs c

theorem effects_append {k : Bytes} {xs : List Change} {c d : Option Content}
    (h : effects k xs c = .ok d) (ys : List Change) :
    effects k (xs ++ ys) c = effects k ys d := by
  induction xs generalizing c with
  | nil =>
    cases h
    rfl
  | cons x xs ih =>
    rw [effects] at h
    rw [List.cons_append, effects]
    by_cases hx : x.key = k
    · rw [if_pos hx] at h ⊢
      obtain ⟨c, hc, hrest⟩ := Outcome.bind_eq_ok_iff.1 h
      rw [hc]
      exact ih hrest
    · rw [if_neg hx] at h ⊢
      exact ih h

theorem effects_of_untouched {k : Bytes} {xs : List Change} (h : ∀ x ∈ xs, x.key ≠ k)
    (c : Option Content) : effects k xs c = .ok c := by
  induction xs with
  | nil => rfl
  | cons x xs ih =>
    rw [effects, if_neg (h x List.mem_cons_self), ih fun y hy => h y (List.mem_cons_of_mem _ hy)]

end Change

namespace Store

/-- Lets a key hold something else, or nothing. -/
def assign (s : Store) (key : Bytes) : Option Content → Store
  | some c => s.hold key c
  | none => s.drop key

theorem Orderly.assign {s : Store} (h : s.Orderly) (key : Bytes) (c : Option Content) :
    (s.assign key c).Orderly := by
  cases c with
  | none => exact h.drop key
  | some c => exact h.hold key c

theorem content?_assign {s : Store} (h : s.Orderly) (key : Bytes) (c : Option Content)
    (k : Bytes) : (s.assign key c).content? k = if k = key then c else s.content? k := by
  cases c with
  | none => exact content?_drop h key k
  | some c => exact content?_hold s key c k

/-- A change looks at one key, and changes what that key holds. -/
theorem change_eq {s : Store} (h : s.Orderly) (x : Change) :
    s.change x = (x.effect (s.content? x.key)).map (s.assign x.key) := by
  cases x with
  | putFields key fields =>
    simp only [change, putFields, Store.fields, h.whenOpen, Change.key]
    rcases s.content? key with _ | (_ | _) <;> rfl
  | delete key =>
    simp only [change, delete, h.whenOpen, Change.key, Change.effect]
    rfl
  | addMember key member =>
    simp only [change, addMember, Store.members, h.whenOpen, Change.key]
    rcases s.content? key with _ | (_ | _) <;> rfl
  | removeMember key member =>
    simp only [change, removeMember, Store.members, h.whenOpen, Change.key]
    rcases s.content? key with _ | (_ | old)
    · rfl
    · rfl
    · cases hl : old.erase member with
      | nil =>
        simp [hl, Change.effect, Except.map, Store.assign, bind, Except.bind, pure, Except.pure]
      | cons a as =>
        simp [hl, Change.effect, Except.map, Store.assign, bind, Except.bind, ofMembers, pure,
          Except.pure]

/-- **Changes go through if those at each key do, and leave at each key what those leave there.** -/
theorem changeAll_of_effects {s : Store} (h : s.Orderly) {xs : List Change}
    {c : Bytes → Option Content} (hc : ∀ k, Change.effects k xs (s.content? k) = .ok (c k)) :
    ∃ s', s.changeAll xs = (.ok (), s') ∧ s'.Orderly ∧ ∀ k, s'.content? k = c k := by
  induction xs generalizing s with
  | nil =>
    refine ⟨s, rfl, h, ?_⟩
    intro k
    exact Except.ok.inj (hc k)
  | cons x xs ih =>
    have hx := hc x.key
    rw [Change.effects, if_pos rfl, Outcome.bind_eq_ok_iff] at hx
    obtain ⟨d, hd, hrest⟩ := hx
    have hchange : s.change x = .ok (s.assign x.key d) := by
      rw [change_eq h, hd]
      rfl
    have hafter : ∀ k, Change.effects k xs ((s.assign x.key d).content? k) = .ok (c k) := by
      intro k
      rw [content?_assign h]
      by_cases hk : k = x.key
      · rw [if_pos hk, hk, hrest]
      · have := hc k
        rw [Change.effects, if_neg fun he => hk he.symm] at this
        rw [if_neg hk, this]
    obtain ⟨s', hs', ho, hcontent⟩ := ih (h.assign x.key d) hafter
    refine ⟨s', ?_, ho, hcontent⟩
    rw [changeAll, hchange]
    exact hs'

/-! ## Members that stay -/

/-- The key holds a set with this member. -/
def HasMember (s : Store) (key member : Bytes) : Prop :=
  ∃ members, s.members key = .ok members ∧ member ∈ members

theorem isOpen_of_members {s : Store} {key : Bytes} {members : List Bytes}
    (h : s.members key = .ok members) : s.isClosed = false := by
  unfold Store.members whenOpen at h
  split_ifs at h with hclosed
  simpa using hclosed

theorem members_hold {s : Store} (h : s.isClosed = false) (key : Bytes) (members : List Bytes)
    (k : Bytes) :
    (s.hold key (.set members)).members k = if k = key then .ok members else s.members k := by
  have hopen : (s.hold key (.set members)).isClosed = false := h
  simp only [Store.members, whenOpen, h, hopen, content?_hold]
  split_ifs <;> first | contradiction | rfl

/-- Whoever is added to a set is a member then, and whoever was one stays one. -/
theorem hasMember_of_addMember {s s' : Store} {key member k b : Bytes}
    (h : s.change (.addMember key member) = .ok s')
    (hb : (k = key ∧ b = member) ∨ s.HasMember k b) : s'.HasMember k b := by
  obtain ⟨r, hr, rfl⟩ := Outcome.map_eq_ok_iff.1 h
  obtain ⟨old, hold, hr⟩ := Outcome.bind_eq_ok_iff.1 hr
  cases hr
  have hmembers := members_hold (isOpen_of_members hold) key (Sorted.insert member old) k
  by_cases hk : k = key
  · subst hk
    rw [if_pos rfl] at hmembers
    refine ⟨_, hmembers, Sorted.mem_insert.2 ?_⟩
    rcases hb with ⟨-, rfl⟩ | ⟨members, hm, hb⟩
    · exact .inl rfl
    · cases hold.symm.trans hm
      exact .inr hb
  · rw [if_neg hk] at hmembers
    obtain ⟨members, hm, hb⟩ := hb.resolve_left fun h => hk h.1
    exact ⟨members, hmembers.trans hm, hb⟩

theorem hasMember_of_changeAll {s s' : Store} {keys : List Bytes} {member k : Bytes}
    (h : s.changeAll (keys.map (.addMember · member)) = (.ok (), s'))
    (hk : k ∈ keys ∨ s.HasMember k member) : s'.HasMember k member := by
  induction keys generalizing s with
  | nil =>
    cases h
    exact hk.resolve_left List.not_mem_nil
  | cons key keys ih =>
    rw [List.map_cons, changeAll] at h
    split at h
    · next t ht =>
      refine ih h ?_
      rw [List.mem_cons] at hk
      rcases hk with (rfl | hk) | hk
      · exact .inr (hasMember_of_addMember ht (.inl ⟨rfl, rfl⟩))
      · exact .inl hk
      · exact .inr (hasMember_of_addMember ht (.inr hk))
    · cases h

theorem changeAll_append_eq_ok_iff {s s' : Store} {xs ys : List Change} :
    s.changeAll (xs ++ ys) = (.ok (), s') ↔
      ∃ t, s.changeAll xs = (.ok (), t) ∧ t.changeAll ys = (.ok (), s') := by
  induction xs generalizing s with
  | nil => simp [changeAll]
  | cons x xs ih =>
    rw [List.cons_append, changeAll, changeAll]
    cases s.change x with
    | error e => simp
    | ok t => exact ih

end Store

end FlatGraph
