import FlatGraph.Proofs.Store
import Mathlib.Data.Finset.Card

/-!
# The store as an ideal one

An ideal store is a map. A key that holds a hash holds all that was written to it since it came to
be, and one that holds a set holds a finite set that is not empty. There are no lists to keep in
order, and no entries to find.

**Theorem (`Mirrors.run`).** A store that holds what an ideal one holds answers as that one does,
whatever is done with both, and goes on to hold what it holds: of a hash each field once, where it
was first written, with the value written last (`Latest`), and of a set the members in ascending
order (`Listing`).

A change concerns one key (`perform_change`), so that it is compared with the ideal one at that key
alone (`Shows.effect`).
-/

namespace FlatGraph

namespace Store

/-! ## Operations -/

/-- What is done with a store. -/
inductive Operation where
  | change (x : Change)
  | fields (key : Bytes)
  | members (key : Bytes)
  | isMember (key member : Bytes)
  | card (key : Bytes)
  | keysFrom (start : Bytes)
  | keys
  | clear
  | close

/-- What a store answers. -/
inductive Reply where
  | done
  | flag (b : Bool)
  | fields (fields : List (Bytes × Bytes))
  | list (bs : List Bytes)
  | number (n : Nat)
  | refused (e : StoreError)
deriving DecidableEq

/-- The reply and the store of an operation, which leaves the store as it is if it is refused. -/
def settle (s : Store) : Except StoreError (Reply × Store) → Reply × Store
  | .ok x => x
  | .error e => (.refused e, s)

/-- Performs an operation. -/
def perform (s : Store) : Operation → Reply × Store
  | .change (.putFields key fields) => s.settle ((.done, ·) <$> s.putFields key fields)
  | .change (.delete key) => s.settle (Prod.map .flag id <$> s.delete key)
  | .change (.addMember key member) => s.settle (Prod.map .flag id <$> s.addMember key member)
  | .change (.removeMember key member) =>
    s.settle (Prod.map .flag id <$> s.removeMember key member)
  | .fields key => s.settle ((.fields ·, s) <$> s.fields key)
  | .members key => s.settle ((.list ·, s) <$> s.members key)
  | .isMember key member => s.settle ((.flag ·, s) <$> s.isMember key member)
  | .card key => s.settle ((.number ·, s) <$> s.card key)
  | .keysFrom start => s.settle ((.list ·, s) <$> s.keysFrom start)
  | .keys => (.list s.keys, s)
  | .clear => (.done, s.clear)
  | .close => (.done, s.close)

/-- Performs operations one after another. -/
def run (s : Store) : List Operation → List Reply × Store
  | [] => ([], s)
  | op :: ops => ((s.perform op).1 :: ((s.perform op).2.run ops).1, ((s.perform op).2.run ops).2)

/-! ## The ideal store -/

/-- The two things that a key can hold. -/
inductive Kind where
  | hash
  | set
deriving DecidableEq

/-- The kind of what a key holds. -/
def kindOf : Content → Kind
  | .hash _ => .hash
  | .set _ => .set

/-- The error of an operation that takes a key to hold something of this kind, and is wrong. -/
def Kind.mismatch : Kind → Bytes → StoreError
  | hash => .notHash
  | set => .notSet

/-- What a key of an ideal store holds. -/
inductive Held where
  /-- A hash, with what was written to it since it came to be. -/
  | hash (writes : List (Bytes × Bytes))
  | set (members : Finset Bytes) (nonempty : members.Nonempty)

namespace Held

def kind : Held → Kind
  | hash _ => .hash
  | set _ _ => .set

/-- What was written to a hash. -/
def writes : Option Held → List (Bytes × Bytes)
  | some (hash writes) => writes
  | _ => []

/-- The members of a set. -/
def members : Option Held → Finset Bytes
  | some (set members _) => members
  | _ => ∅

/-- A set is there as long as it has members. -/
def ofMembers (members : Finset Bytes) : Option Held :=
  if h : members.Nonempty then some (set members h) else none

/-- The error of an operation that takes the key to hold something of a kind. -/
def refusal? (key : Bytes) (kind : Kind) (d : Option Held) : Option StoreError :=
  d.bind fun h => if h.kind = kind then none else some (kind.mismatch key)

/-- What a change leaves of what its key holds. -/
def after : Change → Option Held → Option Held
  | .putFields _ fields, d => some (hash (writes d ++ fields))
  | .delete _, _ => none
  | .addMember _ member, d => ofMembers (insert member (members d))
  | .removeMember _ member, d => ofMembers ((members d).erase member)

/-- What a change answers: whether there was something to delete, whether the member is new, and
whether it was there. -/
def report : Change → Option Held → Reply
  | .putFields _ _, _ => .done
  | .delete _, d => .flag d.isSome
  | .addMember _ member, d => .flag (member ∉ members d)
  | .removeMember _ member, d => .flag (member ∈ members d)

end Held

/-- The key that an operation is about, with the kind of what it takes the key to hold. -/
def Operation.expects : Operation → Option (Bytes × Kind)
  | change (.putFields key _) | fields key => some (key, .hash)
  | change (.addMember key _) | change (.removeMember key _) => some (key, .set)
  | members key | isMember key _ | card key => some (key, .set)
  | change (.delete _) | keysFrom _ | keys | clear | close => none

/-- Whether a closed store refuses the operation. -/
def Operation.isGuarded : Operation → Bool
  | keys | clear | close => false
  | _ => true

/-- An ideal store. -/
structure Ideal where
  held : Bytes → Option Held := fun _ => none
  isClosed : Bool := false

/-- `fields` is what remains of `writes`: each field once, where it was first written, with the
value that was written last. -/
structure Latest (writes fields : List (Bytes × Bytes)) : Prop where
  names : fields.map (·.1) = (writes.map (·.1)).eraseDups
  values : ∀ field, fields.lookup field = writes.reverse.lookup field

/-- The byte strings with a property, in strictly ascending order. -/
structure Listing (bs : List Bytes) (P : Bytes → Prop) : Prop where
  ascending : bs.Pairwise (· < ·)
  mem_iff : ∀ b, b ∈ bs ↔ P b

namespace Ideal

/-- The error of an operation that is refused. -/
def refusal? (m : Ideal) (op : Operation) : Option StoreError :=
  if m.isClosed && op.isGuarded then some .closed
  else op.expects.bind fun (key, kind) => Held.refusal? key kind (m.held key)

/-- What an operation makes of the store, if it is not refused. -/
def after (m : Ideal) : Operation → Ideal
  | .change x => { m with held := Function.update m.held x.key (Held.after x (m.held x.key)) }
  | .clear => { m with held := fun _ => none }
  | .close => { m with isClosed := true }
  | _ => m

/-- What is answered to an operation that is not refused. -/
def Grants (m : Ideal) : Operation → Reply → Prop
  | .change x, r => r = Held.report x (m.held x.key)
  | .fields key, r => ∃ fields, Latest (Held.writes (m.held key)) fields ∧ r = .fields fields
  | .members key, r => ∃ bs, Listing bs (· ∈ Held.members (m.held key)) ∧ r = .list bs
  | .isMember key b, r => r = .flag (b ∈ Held.members (m.held key))
  | .card key, r => r = .number (Held.members (m.held key)).card
  | .keysFrom start, r => ∃ ks, Listing ks (fun k => m.held k ≠ none ∧ start <+: k) ∧ r = .list ks
  | .keys, r => ∃ ks, Listing ks (m.held · ≠ none) ∧ r = .list ks
  | .clear, r => r = .done
  | .close, r => r = .done

/-- What is answered to an operation. -/
def Answers (m : Ideal) (op : Operation) (r : Reply) : Prop :=
  match m.refusal? op with
  | some e => r = .refused e
  | none => m.Grants op r

/-- Performs an operation. -/
def perform (m : Ideal) (op : Operation) : Ideal :=
  if (m.refusal? op).isSome then m else m.after op

/-- What is answered to operations one after another. -/
def AnswersAll (m : Ideal) : List Operation → List Reply → Prop
  | [], rs => rs = []
  | op :: ops, rs => ∃ r rs', rs = r :: rs' ∧ m.Answers op r ∧ (m.perform op).AnswersAll ops rs'

/-- Performs operations one after another. -/
def run (m : Ideal) (ops : List Operation) : Ideal := ops.foldl perform m

end Ideal

/-! ## Hashes -/

theorem map_fst_writeField (field value : Bytes) (l : List (Bytes × Bytes)) :
    (writeField field value l).map (·.1) =
      if field ∈ l.map (·.1) then l.map (·.1) else l.map (·.1) ++ [field] := by
  induction l with
  | nil => rfl
  | cons e l ih =>
    rw [writeField]
    by_cases he : e.1 = field
    · simp [he]
    · rw [if_neg he, List.map_cons, ih]
      by_cases hm : field ∈ l.map (·.1)
      · simp [hm]
      · simp [hm, show ¬ field = e.1 from fun h => he h.symm]

theorem lookup_writeField (field value : Bytes) (l : List (Bytes × Bytes)) (k : Bytes) :
    (writeField field value l).lookup k = if k = field then some value else l.lookup k := by
  induction l with
  | nil => exact Lists.lookup_cons_eq _ _ _ _
  | cons e l ih =>
    obtain ⟨a, b⟩ := e
    rw [writeField]
    split_ifs <;> grind [Lists.lookup_cons_eq]

theorem Latest.nil : Latest [] [] := ⟨rfl, fun _ => rfl⟩

theorem Latest.write {writes fields : List (Bytes × Bytes)} (h : Latest writes fields)
    (f : Bytes × Bytes) : Latest (writes ++ [f]) (writeField f.1 f.2 fields) := by
  constructor
  · rw [map_fst_writeField, h.names, List.map_append, List.map_singleton, Lists.eraseDups_concat]
    simp only [List.mem_eraseDups]
  · intro field
    rw [lookup_writeField, h.values, List.reverse_append, List.reverse_singleton]
    exact (Lists.lookup_cons_eq f.1 field f.2 _).symm

theorem Latest.writeAll {writes fields : List (Bytes × Bytes)} (h : Latest writes fields)
    (more : List (Bytes × Bytes)) :
    Latest (writes ++ more) (more.foldl (fun es f => writeField f.1 f.2 es) fields) := by
  induction more generalizing writes fields with
  | nil => simpa using h
  | cons f more ih => simpa using ih (h.write f)

/-! ## Sets -/

theorem Listing.nil : Listing [] (· ∈ (∅ : Finset Bytes)) := ⟨.nil, by simp⟩

theorem Listing.insert {bs : List Bytes} {members : Finset Bytes}
    (h : Listing bs (· ∈ members)) (b : Bytes) :
    Listing (Sorted.insert b bs) (· ∈ Insert.insert b members) where
  ascending := Sorted.pairwise_insert b h.ascending
  mem_iff c := by rw [Sorted.mem_insert, h.mem_iff, Finset.mem_insert]

theorem Listing.erase {bs : List Bytes} {members : Finset Bytes}
    (h : Listing bs (· ∈ members)) (b : Bytes) :
    Listing (bs.erase b) (· ∈ members.erase b) where
  ascending := h.ascending.sublist List.erase_sublist
  mem_iff c := by
    rw [(Sorted.nodup_of_pairwise h.ascending).mem_erase_iff, h.mem_iff, Finset.mem_erase]

theorem Listing.length_eq {bs : List Bytes} {members : Finset Bytes}
    (h : Listing bs (· ∈ members)) : bs.length = members.card := by
  have : bs.toFinset = members := Finset.ext fun b => List.mem_toFinset.trans (h.mem_iff b)
  rw [← this, List.toFinset_card_of_nodup (Sorted.nodup_of_pairwise h.ascending)]

theorem Listing.eq_nil_iff {bs : List Bytes} {members : Finset Bytes}
    (h : Listing bs (· ∈ members)) : bs = [] ↔ ¬ members.Nonempty := by
  rw [← Finset.card_pos, ← h.length_eq, List.length_pos_iff, not_not]

/-! ## What a key holds -/

/-- What a key of the store holds looks as what it holds in the ideal one. -/
inductive Shows : Option Content → Option Held → Prop
  | nothing : Shows none none
  | hash {writes fields : List (Bytes × Bytes)} :
    Latest writes fields → Shows (some (.hash fields)) (some (.hash writes))
  | set {bs : List Bytes} {members : Finset Bytes} (hne : members.Nonempty) :
    Listing bs (· ∈ members) → Shows (some (.set bs)) (some (.set members hne))

theorem Shows.ofMembers {bs : List Bytes} {members : Finset Bytes}
    (h : Listing bs (· ∈ members)) : Shows (ofMembers bs) (Held.ofMembers members) := by
  unfold Store.ofMembers Held.ofMembers
  by_cases hne : members.Nonempty
  · rw [if_neg fun hb => h.eq_nil_iff.1 hb hne, dif_pos hne]
    exact .set hne h
  · rw [if_pos (h.eq_nil_iff.2 hne), dif_neg hne]
    exact .nothing

theorem Shows.insert {bs : List Bytes} {members : Finset Bytes} (h : Listing bs (· ∈ members))
    (b : Bytes) :
    Shows (some (.set (Sorted.insert b bs))) (Held.ofMembers (Insert.insert b members)) := by
  rw [Held.ofMembers, dif_pos (Finset.insert_nonempty b members)]
  exact .set _ (h.insert b)

/-- The members of what a key holds, if it holds a set. -/
def membersOf : Option Content → List Bytes
  | some (.set members) => members
  | _ => []

/-- What is answered to a change that is not refused. -/
def report : Change → Option Content → Reply
  | .putFields _ _, _ => .done
  | .delete _, c => .flag c.isSome
  | .addMember _ member, c => .flag (!(membersOf c).contains member)
  | .removeMember _ member, c => .flag ((membersOf c).contains member)

theorem Shows.isSome_eq {c : Option Content} {d : Option Held} (h : Shows c d) :
    c.isSome = d.isSome := by
  cases h <;> rfl

theorem Shows.mem_members {c : Option Content} {d : Option Held} (h : Shows c d) (b : Bytes) :
    b ∈ membersOf c ↔ b ∈ Held.members d := by
  cases h with
  | nothing => simp [membersOf, Held.members]
  | hash => simp [membersOf, Held.members]
  | set hne h => exact h.mem_iff b

theorem Shows.report_eq {c : Option Content} {d : Option Held} (h : Shows c d) (x : Change) :
    report x c = Held.report x d := by
  cases x <;> simp [report, Held.report, h.isSome_eq, h.mem_members]

/-- At its key, a change is refused if the ideal one is, and else leaves what the ideal one does. -/
theorem Shows.effect {c : Option Content} {d : Option Held} (h : Shows c d) (x : Change) :
    match (Operation.change x).expects.bind fun (key, kind) => Held.refusal? key kind d with
    | some e => x.effect c = .error e
    | none => ∃ c', x.effect c = .ok c' ∧ Shows c' (Held.after x d) := by
  cases x with
  | putFields key fields =>
    cases h with
    | nothing => exact ⟨_, rfl, .hash (Latest.nil.writeAll fields)⟩
    | hash h => exact ⟨_, rfl, .hash (h.writeAll fields)⟩
    | set => rfl
  | delete key => exact ⟨none, rfl, .nothing⟩
  | addMember key member =>
    cases h with
    | nothing => exact ⟨_, rfl, .insert .nil member⟩
    | hash => rfl
    | set hne h => exact ⟨_, rfl, .insert h member⟩
  | removeMember key member =>
    cases h with
    | nothing => exact ⟨none, rfl, .nothing⟩
    | hash => rfl
    | set hne h => exact ⟨_, rfl, .ofMembers (h.erase member)⟩

/-- A change looks at its key, and changes what that holds. -/
theorem perform_change {s : Store} (h : s.Orderly) (x : Change) :
    s.perform (.change x) = s.settle ((x.effect (s.content? x.key)).map fun c =>
      (report x (s.content? x.key), s.assign x.key c)) := by
  cases x with
  | putFields key fields =>
    simp only [perform, putFields, Store.fields, h.whenOpen, Change.key]
    rcases s.content? key with _ | (_ | _) <;> rfl
  | delete key =>
    simp only [perform, delete, h.whenOpen, Change.key]
    rfl
  | addMember key member =>
    simp only [perform, addMember, Store.members, h.whenOpen, Change.key]
    rcases s.content? key with _ | (_ | _) <;> rfl
  | removeMember key member =>
    simp only [perform, removeMember, Store.members, h.whenOpen, Change.key]
    rcases s.content? key with _ | (_ | old)
    · rfl
    · rfl
    · show s.settle (.ok (.flag (old.contains member), if (old.erase member).isEmpty then
        s.drop key else s.hold key (.set (old.erase member)))) = s.settle (.ok
          (.flag (old.contains member), s.assign key (Store.ofMembers (old.erase member))))
      cases old.erase member <;> rfl

/-! ## Runs -/

/-- The store holds what the ideal one holds. -/
structure Mirrors (s : Store) (m : Ideal) : Prop where
  isClosed : s.isClosed = m.isClosed
  ascending : s.keys.Pairwise (· < ·)
  shows : ∀ key, Shows (s.content? key) (m.held key)

theorem Mirrors.empty : Mirrors {} {} := ⟨rfl, .nil, fun _ => .nothing⟩

namespace Mirrors

variable {s : Store} {m : Ideal}

theorem orderly (h : s.Mirrors m) (hopen : m.isClosed = false) : s.Orderly :=
  ⟨h.isClosed.trans hopen, h.ascending⟩

theorem perform_of_closed (h : s.Mirrors m) (hclosed : m.isClosed = true) {op : Operation}
    (hop : op.isGuarded = true) : s.perform op = (.refused .closed, s) := by
  have hs : s.isClosed = true := h.isClosed.trans hclosed
  have hrefuse {α : Type} (x : Except StoreError α) : s.whenOpen x = .error .closed := if_pos hs
  cases op with
  | change x =>
    cases x <;> simp only [Store.perform, putFields, delete, addMember, removeMember, Store.fields,
      Store.members, hrefuse] <;> rfl
  | keys | clear | close => cases hop
  | _ =>
    simp only [Store.perform, Store.fields, Store.members, isMember, card, keysFrom, hrefuse]
    rfl

theorem mem_keys_iff (h : s.Mirrors m) (key : Bytes) : key ∈ s.keys ↔ m.held key ≠ none := by
  rw [Store.mem_keys_iff, Option.ne_none_iff_isSome, (h.shows key).isSome_eq,
    Option.ne_none_iff_isSome]

theorem assign (h : s.Mirrors m) (hopen : m.isClosed = false) (key : Bytes) {c : Option Content}
    {d : Option Held} (hshows : Shows c d) :
    (s.assign key c).Mirrors { m with held := Function.update m.held key d } := by
  have ho := h.orderly hopen
  refine ⟨(ho.assign key c).isOpen.trans hopen.symm, (ho.assign key c).ascending, ?_⟩
  intro k
  show Shows _ (Function.update m.held key d k)
  rw [content?_assign ho, Function.update_apply]
  split_ifs
  · exact hshows
  · exact h.shows k

/-! ### Steps -/

/-- An operation is answered as by the ideal store, and leaves what that one holds. -/
def Steps (s : Store) (m : Ideal) (op : Operation) : Prop :=
  m.Answers op (s.perform op).1 ∧ (s.perform op).2.Mirrors (m.perform op)

theorem steps_of_refusal (h : s.Mirrors m) {op : Operation} {e : StoreError}
    (hm : m.refusal? op = some e) (hs : s.perform op = (.refused e, s)) : Steps s m op := by
  rw [Steps, Ideal.Answers, Ideal.perform, hm, hs]
  exact ⟨rfl, h⟩

theorem steps_of_grant {op : Operation} (hm : m.refusal? op = none)
    (hreply : m.Grants op (s.perform op).1) (hafter : (s.perform op).2.Mirrors (m.after op)) :
    Steps s m op := by
  rw [Steps, Ideal.Answers, Ideal.perform, hm]
  exact ⟨hreply, hafter⟩

theorem steps_of_unguarded (h : s.Mirrors m) {op : Operation} (hop : op.isGuarded = false) :
    Steps s m op := by
  have hm : m.refusal? op = op.expects.bind fun (key, kind) =>
      Held.refusal? key kind (m.held key) := if_neg (by simp [hop])
  cases op with
  | keys => exact steps_of_grant hm ⟨_, ⟨h.ascending, h.mem_keys_iff⟩, rfl⟩ h
  | clear => exact steps_of_grant hm rfl ⟨h.isClosed, .nil, fun _ => .nothing⟩
  | close => exact steps_of_grant hm rfl ⟨rfl, h.ascending, h.shows⟩
  | _ => cases hop

theorem steps_change (h : s.Mirrors m) (hopen : m.isClosed = false) (x : Change) :
    Steps s m (.change x) := by
  have ho := h.orderly hopen
  have heffect := (h.shows x.key).effect x
  have hrefusal : m.refusal? (.change x) = (Operation.change x).expects.bind
      fun (key, kind) => Held.refusal? key kind (m.held x.key) := by
    rw [Ideal.refusal?, hopen]
    cases x <;> rfl
  rw [← hrefusal] at heffect
  cases hm : m.refusal? (.change x) with
  | some e =>
    rw [hm] at heffect
    refine h.steps_of_refusal hm ?_
    rw [perform_change ho, heffect]
    rfl
  | none =>
    rw [hm] at heffect
    obtain ⟨c, hc, hshows⟩ := heffect
    have hperform : s.perform (.change x) = (report x (s.content? x.key), s.assign x.key c) := by
      rw [perform_change ho, hc]
      rfl
    refine steps_of_grant hm ?_ ?_
    · rw [hperform]
      exact (h.shows x.key).report_eq x
    · rw [hperform]
      exact h.assign hopen x.key hshows

/-- What is read is refused if the operation is, and else it is as the ideal store has it. -/
def Reads {α : Type} (m : Ideal) (op : Operation) (x : Except StoreError α) (P : α → Prop) :
    Prop :=
  match m.refusal? op with
  | some e => x = .error e
  | none => ∃ a, x = .ok a ∧ P a

theorem steps_of_reads (h : s.Mirrors m) {α : Type} {op : Operation} {x : Except StoreError α}
    {P : α → Prop} (hx : Reads m op x P) {answer : α → Reply}
    (hs : s.perform op = s.settle ((answer ·, s) <$> x)) (hafter : m.after op = m)
    (hreply : ∀ a, P a → m.Grants op (answer a)) : Steps s m op := by
  unfold Reads at hx
  cases hm : m.refusal? op with
  | some e =>
    rw [hm] at hx
    refine h.steps_of_refusal hm ?_
    rw [hs, hx]
    rfl
  | none =>
    rw [hm] at hx
    obtain ⟨a, ha, hP⟩ := hx
    rw [ha] at hs
    refine steps_of_grant hm ?_ ?_
    · rw [hs]
      exact hreply a hP
    · rw [hs, hafter]
      exact h

theorem reads_fields (h : s.Mirrors m) (hopen : m.isClosed = false) (key : Bytes) :
    Reads m (.fields key) (s.fields key) (Latest (Held.writes (m.held key))) := by
  have hshows := h.shows key
  have hm : m.refusal? (.fields key) = Held.refusal? key .hash (m.held key) :=
    if_neg (by simp [hopen])
  rw [Reads, hm, Store.fields, (h.orderly hopen).whenOpen]
  generalize s.content? key = c, m.held key = d at hshows
  cases hshows with
  | nothing => exact ⟨[], rfl, .nil⟩
  | hash hl => exact ⟨_, rfl, hl⟩
  | set => rfl

theorem reads_members (h : s.Mirrors m) (hopen : m.isClosed = false) (key : Bytes) :
    Reads m (.members key) (s.members key) (Listing · (· ∈ Held.members (m.held key))) := by
  have hshows := h.shows key
  have hm : m.refusal? (.members key) = Held.refusal? key .set (m.held key) :=
    if_neg (by simp [hopen])
  rw [Reads, hm, Store.members, (h.orderly hopen).whenOpen]
  generalize s.content? key = c, m.held key = d at hshows
  cases hshows with
  | nothing => exact ⟨[], rfl, .nil⟩
  | hash => rfl
  | set hne hl => exact ⟨_, rfl, hl⟩

theorem reads_keysFrom (h : s.Mirrors m) (hopen : m.isClosed = false) (start : Bytes) :
    Reads m (.keysFrom start) (s.keysFrom start)
      (Listing · fun k => m.held k ≠ none ∧ start <+: k) := by
  have hm : m.refusal? (.keysFrom start) = none := if_neg (by simp [hopen])
  rw [Reads, hm, keysFrom_eq (h.orderly hopen)]
  refine ⟨_, rfl, h.ascending.sublist List.filter_sublist, fun k => ?_⟩
  rw [List.mem_filter, h.mem_keys_iff, List.isPrefixOf_iff_prefix]

/-- **An operation is answered as by the ideal store, and leaves what that one holds.** -/
theorem steps (h : s.Mirrors m) (op : Operation) : Steps s m op := by
  by_cases hop : op.isGuarded = true
  swap
  · exact h.steps_of_unguarded (by simpa using hop)
  cases hopen : m.isClosed with
  | true =>
    have hm : m.refusal? op = some .closed := if_pos (by simp [hopen, hop])
    exact h.steps_of_refusal hm (h.perform_of_closed hopen hop)
  | false =>
    cases op with
    | keys | clear | close => cases hop
    | change x => exact h.steps_change hopen x
    | fields key =>
      exact h.steps_of_reads (h.reads_fields hopen key) rfl rfl fun fields hl => ⟨fields, hl, rfl⟩
    | members key =>
      exact h.steps_of_reads (h.reads_members hopen key) rfl rfl fun bs hbs => ⟨bs, hbs, rfl⟩
    | isMember key b =>
      have hs : s.perform (.isMember key b) =
          s.settle ((fun bs => (.flag (bs.contains b), s)) <$> s.members key) := by
        rw [Store.perform, isMember]
        cases s.members key <;> rfl
      refine h.steps_of_reads (h.reads_members hopen key) hs rfl fun bs hbs => ?_
      simp [Ideal.Grants, hbs.mem_iff]
    | card key =>
      have hs : s.perform (.card key) =
          s.settle ((fun bs => (.number bs.length, s)) <$> s.members key) := by
        rw [Store.perform, card]
        cases s.members key <;> rfl
      refine h.steps_of_reads (h.reads_members hopen key) hs rfl fun bs hbs => ?_
      simp [Ideal.Grants, hbs.length_eq]
    | keysFrom start =>
      exact h.steps_of_reads (h.reads_keysFrom hopen start) rfl rfl fun ks hks => ⟨ks, hks, rfl⟩

/-- Operations one after another are answered as by the ideal store, and leave what that one
holds. -/
theorem run (h : s.Mirrors m) (ops : List Operation) :
    m.AnswersAll ops (s.run ops).1 ∧ (s.run ops).2.Mirrors (m.run ops) := by
  induction ops generalizing s m with
  | nil => exact ⟨rfl, h⟩
  | cons op ops ih =>
    obtain ⟨hanswer, hafter⟩ := h.steps op
    obtain ⟨hanswers, hrun⟩ := ih hafter
    exact ⟨⟨_, _, rfl, hanswer, hanswers⟩, hrun⟩

end Mirrors

end Store

end FlatGraph
