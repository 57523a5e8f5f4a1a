import FlatGraph.Proofs.Store.Ideal

/-!
# Stores that started empty

**Theorem (`run_ideal`).** Whatever is done with a store that starts empty, it answers as the ideal
one does and holds what that one holds; and the store is `Regular`. Sets have members, what is
refused changes nothing, and a change that answers yes or no says whether it changed the store.

A store may make room at a key before it looks at what is there. Where that is refused, nothing was
put there, as a key that held nothing holds the right kind by then (`Mirrors.changeInPlace_eq`).

**Theorem (`keysFrom_run`).** A scan of such a store stops at the first key that does not begin as
asked for, and still finds all that do: in the order of the keys nothing else stands between them,
and nothing that begins so stands before the start itself (`scan_eq_filter`).
-/

namespace FlatGraph

namespace Store

/-! ## Changes in place -/

/-- What a key holds, after `fresh` was put there if it held nothing. -/
def entry (s : Store) (key : Bytes) (fresh : Content) : Content × Store :=
  match s.content? key with
  | some c => (c, s)
  | none => (fresh, s.hold key fresh)

/-- Makes a change in place: what is written to comes to be before its kind is looked at, and a
set that is left without members goes after the last one was taken out. -/
def changeInPlace (s : Store) (x : Change) : Reply × Store :=
  if s.isClosed then (.refused .closed, s)
  else match x with
    | .putFields key fields =>
      match s.entry key (.hash []) with
      | (.hash old, s) =>
        (.done, s.hold key (.hash (fields.foldl (fun es f => writeField f.1 f.2 es) old)))
      | (.set _, s) => (.refused (.notHash key), s)
    | .delete key => (.flag (s.content? key).isSome, s.drop key)
    | .addMember key member =>
      match s.entry key (.set []) with
      | (.set old, s) =>
        (.flag (!old.contains member), s.hold key (.set (Sorted.insert member old)))
      | (.hash _, s) => (.refused (.notSet key), s)
    | .removeMember key member =>
      match s.content? key with
      | some (.set old) =>
        let left := s.hold key (.set (old.erase member))
        (.flag (old.contains member), if (old.erase member).isEmpty then left.drop key else left)
      | some (.hash _) => (.refused (.notSet key), s)
      | none => (.flag false, s)

/-- What a key was made to hold before does not matter. -/
theorem assign_hold {s : Store} (h : s.Orderly) (key : Bytes) (c : Content)
    (c' : Option Content) : (s.hold key c).assign key c' = s.assign key c' := by
  refine ext ((h.hold key c).assign key c') (h.assign key c') fun k => ?_
  rw [content?_assign (h.hold key c), content?_assign h, content?_hold]
  split_ifs <;> rfl

theorem assign_eq_self_iff {s : Store} (h : s.Orderly) (key : Bytes) (c : Option Content) :
    s.assign key c = s ↔ c = s.content? key := by
  constructor
  · intro hs
    have := content?_assign h key c key
    rwa [if_pos rfl, hs, eq_comm] at this
  · rintro rfl
    refine ext (h.assign _ _) h fun k => ?_
    rw [content?_assign h]
    split_ifs with hk
    · rw [hk]
    · rfl

/-- In place, a change comes to the same. -/
theorem Mirrors.changeInPlace_eq {s : Store} {m : Ideal} (h : s.Mirrors m) (x : Change) :
    s.changeInPlace x = s.perform (.change x) := by
  cases hclosed : m.isClosed with
  | true =>
    rw [h.perform_of_closed hclosed rfl]
    exact if_pos (h.isClosed.trans hclosed)
  | false =>
    have ho := h.orderly hclosed
    unfold changeInPlace
    rw [perform_change ho, if_neg (by simp [ho.isOpen])]
    cases x with
    | putFields key fields =>
      dsimp only [Change.key, entry]
      rcases s.content? key with _ | (_ | _)
      · exact Prod.ext rfl (assign_hold ho key _ (some _))
      · rfl
      · rfl
    | delete key => rfl
    | addMember key member =>
      dsimp only [Change.key, entry]
      rcases s.content? key with _ | (_ | _)
      · exact Prod.ext rfl (assign_hold ho key _ (some _))
      · rfl
      · rfl
    | removeMember key member =>
      dsimp only [Change.key, Change.effect, Store.ofMembers]
      rcases hc : s.content? key with _ | (_ | old)
      · exact Prod.ext rfl ((assign_eq_self_iff ho key none).2 hc.symm).symm
      · rfl
      · dsimp only
        cases old.erase member with
        | nil => exact Prod.ext rfl (assign_hold ho key _ none)
        | cons b left => rfl

/-! ## What holds of every store -/

theorem insert_eq_self_iff {b : Bytes} {bs : List Bytes} (h : bs.Pairwise (· < ·)) :
    Sorted.insert b bs = bs ↔ b ∈ bs := by
  constructor
  · intro heq
    rw [← heq, Sorted.mem_insert]
    exact .inl rfl
  · intro hb
    refine Sorted.eq_of_mem_iff (Sorted.pairwise_insert b h) h fun a => ?_
    rw [Sorted.mem_insert]
    exact or_iff_right_of_imp fun ha => ha ▸ hb

/-- A change that answers yes or no says whether it changed what its key holds. -/
theorem Shows.changed_iff {c c' : Option Content} {d : Option Held} (h : Shows c d) {x : Change}
    (hx : x.effect c = .ok c') {b : Bool} (hb : report x c = .flag b) : b = true ↔ c' ≠ c := by
  cases x with
  | putFields => cases hb
  | delete key =>
    cases hx
    cases hb
    rw [Option.isSome_iff_ne_none, ne_comm]
  | addMember key member =>
    cases hb
    cases h with
    | nothing =>
      cases hx
      simp [membersOf]
    | hash => cases hx
    | set hne h =>
      cases hx
      simp [membersOf, insert_eq_self_iff h.ascending]
  | removeMember key member =>
    cases hb
    cases h with
    | nothing =>
      cases hx
      simp [membersOf]
    | hash => cases hx
    | @set bs members hne h =>
      cases hx
      have hbs : bs ≠ [] := mt h.eq_nil_iff.1 (not_not.2 hne)
      have heq : Store.ofMembers (bs.erase member) = some (.set bs) ↔ member ∉ bs := by
        rw [← List.erase_eq_self_iff, Store.ofMembers]
        split_ifs with he
        · simp [he, hbs.symm]
        · simp
      simp [membersOf, heq]

/-- What holds of a store, however it came about. -/
structure Regular (s : Store) : Prop where
  /-- A set has members. -/
  inhabited : ∀ key members, s.content? key = some (.set members) → members ≠ []
  /-- After its last member was taken out of a set, the key holds nothing. -/
  emptied : ∀ key b, s.isClosed = false → s.content? key = some (.set [b]) →
    (s.perform (.change (.removeMember key b))).2.content? key = none
  /-- A key that holds nothing may become a hash, or a set. -/
  becomes : ∀ key, s.isClosed = false → s.content? key = none →
    (∀ fields, ∃ written, Latest fields written ∧
      s.perform (.change (.putFields key fields)) = (.done, s.hold key (.hash written))) ∧
    ∀ b, s.perform (.change (.addMember key b)) = (.flag true, s.hold key (.set [b]))
  /-- A change that answers yes or no says whether it changed the store. -/
  reports : ∀ x b, (s.perform (.change x)).1 = .flag b →
    (b = true ↔ (s.perform (.change x)).2 ≠ s)
  /-- An operation of the wrong kind is refused. -/
  wrongKind : ∀ op key kind c, s.isClosed = false → op.expects = some (key, kind) →
    s.content? key = some c → kindOf c ≠ kind → (s.perform op).1 = .refused (kind.mismatch key)
  /-- An operation that is refused changes nothing. -/
  refused : ∀ op e, (s.perform op).1 = .refused e → (s.perform op).2 = s
  /-- That is so even if an operation makes room for what it writes before it is refused. -/
  inPlace : ∀ x, s.changeInPlace x = s.perform (.change x)
  /-- A closed store keeps what it holds. -/
  closed : s.isClosed = true → ∀ op, op.isGuarded = true → s.perform op = (.refused .closed, s)

theorem settle_refused {s : Store} {α : Type} {f : α → Reply × Store} {x : Except StoreError α}
    {e : StoreError} (hf : ∀ a, (f a).1 ≠ .refused e) (h : (s.settle (f <$> x)).1 = .refused e) :
    (s.settle (f <$> x)).2 = s := by
  cases x with
  | error => rfl
  | ok a => exact absurd h (hf a)

theorem perform_refused {s : Store} {op : Operation} {e : StoreError}
    (h : (s.perform op).1 = .refused e) : (s.perform op).2 = s := by
  cases op with
  | change x => cases x <;> exact settle_refused (fun _ => nofun) h
  | keys | clear | close => cases h
  | _ => exact settle_refused (fun _ => nofun) h

theorem Shows.kind_eq {c : Content} {d : Option Held} (h : Shows (some c) d) :
    d.map Held.kind = some (kindOf c) := by
  cases h <;> rfl

namespace Mirrors

variable {s : Store} {m : Ideal}

theorem changed_iff (h : s.Mirrors m) {x : Change} {b : Bool}
    (hb : (s.perform (.change x)).1 = .flag b) : b = true ↔ (s.perform (.change x)).2 ≠ s := by
  cases hclosed : m.isClosed with
  | true =>
    rw [h.perform_of_closed hclosed rfl] at hb
    cases hb
  | false =>
    have ho := h.orderly hclosed
    rw [perform_change ho] at hb ⊢
    cases hx : x.effect (s.content? x.key) with
    | error e =>
      rw [hx] at hb
      cases hb
    | ok c =>
      rw [hx] at hb
      have hkey := (h.shows x.key).changed_iff hx hb
      exact hkey.trans (not_congr (assign_eq_self_iff ho x.key c).symm)

theorem perform_of_wrongKind (h : s.Mirrors m) (hopen : s.isClosed = false) {op : Operation}
    {key : Bytes} {kind : Kind} {c : Content} (hop : op.expects = some (key, kind))
    (hc : s.content? key = some c) (hkind : kindOf c ≠ kind) :
    (s.perform op).1 = .refused (kind.mismatch key) := by
  have hshows := h.shows key
  rw [hc] at hshows
  obtain ⟨held, hheld, hk⟩ := Option.map_eq_some_iff.1 hshows.kind_eq
  have hm : m.refusal? op = some (kind.mismatch key) := by
    rw [Ideal.refusal?, ← h.isClosed, hopen, hop]
    simp [Held.refusal?, hheld, hk, hkind]
  have hanswer := (h.steps op).1
  rwa [Ideal.Answers, hm] at hanswer

theorem regular (h : s.Mirrors m) : s.Regular where
  inhabited key members hc := by
    have hshows := h.shows key
    rw [hc] at hshows
    generalize m.held key = d at hshows
    cases hshows with
    | set hne hl => exact mt hl.eq_nil_iff.1 (not_not.2 hne)
  emptied key b hopen hc := by
    have ho : s.Orderly := ⟨hopen, h.ascending⟩
    have heffect : (Change.removeMember key b).effect (s.content? key) = .ok none := by
      rw [hc]
      simp [Change.effect]
    rw [perform_change ho, Change.key, heffect]
    show (s.drop key).content? key = none
    rw [content?_drop ho, if_pos rfl]
  becomes key hopen hc := by
    have ho : s.Orderly := ⟨hopen, h.ascending⟩
    constructor
    · intro fields
      refine ⟨_, Latest.nil.writeAll fields, ?_⟩
      rw [perform_change ho, Change.key, hc]
      rfl
    · intro b
      rw [perform_change ho, Change.key, hc]
      rfl
  reports _ _ := h.changed_iff
  wrongKind _ _ _ _ hopen := h.perform_of_wrongKind hopen
  refused _ _ := perform_refused
  inPlace := h.changeInPlace_eq
  closed hclosed _ := h.perform_of_closed (h.isClosed.symm.trans hclosed)

end Mirrors

/-- **Whatever is done with a store that starts empty, it answers as an ideal store does and holds
what that one holds.** What is refused changes nothing. -/
theorem run_ideal (ops : List Operation) :
    Ideal.AnswersAll {} ops (run {} ops).1 ∧ (run {} ops).2.Mirrors (Ideal.run {} ops) ∧
      (run {} ops).2.Regular := by
  obtain ⟨hanswers, hmirrors⟩ := Mirrors.empty.run ops
  exact ⟨hanswers, hmirrors, hmirrors.regular⟩

/-! ## Scans -/

/-- The store is orderly until it is closed. -/
theorem orderly_run {ops : List Operation} (hopen : (run {} ops).2.isClosed = false) :
    (run {} ops).2.Orderly :=
  ⟨hopen, (Mirrors.empty.run ops).2.ascending⟩

/-- What is found by looking through all keys of an orderly store: those that begin with `start`,
whatever they hold. -/
theorem Orderly.listing_filter {s : Store} (h : s.Orderly) (start : Bytes) :
    Listing (s.keys.filter start.isPrefixOf) fun key => start <+: key ∧
      ((∃ fields, s.content? key = some (.hash fields)) ∨
        ∃ members, s.content? key = some (.set members)) where
  ascending := h.ascending.filter _
  mem_iff key := by
    have hheld : s.content? key ≠ none ↔
        (∃ fields, s.content? key = some (.hash fields)) ∨
          ∃ members, s.content? key = some (.set members) := by
      cases s.content? key with
      | none => simp
      | some c => cases c <;> simp
    rw [List.mem_filter, mem_keys_iff, List.isPrefixOf_iff_prefix, hheld, and_comm]

/-- **A scan finds what looking through all keys finds**: the keys that begin with `start` and hold
a hash or a set, each once, in ascending order. -/
theorem keysFrom_run (ops : List Operation) (start : Bytes)
    (hopen : (run {} ops).2.isClosed = false) :
    (run {} ops).2.keysFrom start = .ok ((run {} ops).2.keys.filter start.isPrefixOf) ∧
      Listing ((run {} ops).2.keys.filter start.isPrefixOf) fun key => start <+: key ∧
        ((∃ fields, (run {} ops).2.content? key = some (.hash fields)) ∨
          ∃ members, (run {} ops).2.content? key = some (.set members)) := by
  have horderly := orderly_run hopen
  exact ⟨keysFrom_eq horderly start, horderly.listing_filter start⟩

/-- Hashes and sets, written out of order, at keys with a common beginning and around them. -/
def shuffled : List Operation :=
  [.change (.addMember [0x61, 0xff] [1]), .change (.putFields [0xff, 0xff] []),
    .change (.putFields [0x61] [([2], [3])]), .change (.addMember [0x62] [4]),
    .change (.putFields [0x61, 0xff, 0x00] []), .change (.addMember [0xff] [5]),
    .change (.addMember [0x61, 0xfe] [6]), .change (.removeMember [0x61, 0xfe] [6])]

/-- A beginning that ends in the greatest byte, and the empty one. -/
theorem keysFrom_run_shuffled : (run {} shuffled).2.isClosed = false ∧
    (run {} shuffled).2.keysFrom [0x61, 0xff] = .ok [[0x61, 0xff], [0x61, 0xff, 0x00]] ∧
    (run {} shuffled).2.keysFrom [0xff] = .ok [[0xff], [0xff, 0xff]] ∧
    (run {} shuffled).2.keysFrom [] = .ok [[0x61], [0x61, 0xff], [0x61, 0xff, 0x00], [0x62],
      [0xff], [0xff, 0xff]] := by
  have hopen : (run {} shuffled).2.isClosed = false := by decide +kernel
  refine ⟨hopen, ?_, ?_, ?_⟩
  · rw [(keysFrom_run shuffled [0x61, 0xff] hopen).1]
    decide +kernel
  · rw [(keysFrom_run shuffled [0xff] hopen).1]
    decide +kernel
  · rw [(keysFrom_run shuffled [] hopen).1]
    decide +kernel

end Store

end FlatGraph
