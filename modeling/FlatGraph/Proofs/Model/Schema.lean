import FlatGraph.Model.Schema
import FlatGraph.Proofs.Model.Registry

/-!
# Schemas in any order

**Theorem (`ofSchema_perm`).** A schema loads exactly if it is `Loadable`: its types are known,
each chain of parents leads to a type without one, and each type keeps the rules once it has
inherited. The registry then holds each declared type with what its chain of parents gives it, and
nothing else, in whatever order the types are declared.

The rounds of the loader have the invariant `Partway`: what is registered is complete, and whatever
is declared is registered or pending. While a type is pending that can be completed, some type is
ready, namely the first one of its chain that is not registered (`Partway.exists_ready`), and a
round in which some type is ready leaves fewer types (`Round.length_lt`). So rounds come to an end,
and there are never more of them than types (`ends_iff`).
-/

namespace FlatGraph

namespace EntityType

/-- `t` is the declared type `u` with what its chain of parents gives it. -/
inductive Completes (declared : EntityType → Prop) : EntityType → EntityType → Prop
  | root {u : EntityType} : u.parent = none → Completes declared u u
  | child {u p q : EntityType} :
    declared p → u.parent = some p.name → Completes declared p q →
      Completes declared u (u.extending q)

/-- Declared types of the same name are the same. -/
def Distinct (declared : EntityType → Prop) : Prop :=
  ∀ u v, declared u → declared v → u.name = v.name → u = v

variable {declared : EntityType → Prop}

theorem Completes.name_eq {u t : EntityType} (h : Completes declared u t) : t.name = u.name := by
  cases h <;> rfl

theorem Completes.unique (hd : Distinct declared) {u t t' : EntityType}
    (h : Completes declared u t) (h' : Completes declared u t') : t = t' := by
  induction h generalizing t' with
  | root hu =>
    cases h' with
    | root => rfl
    | child _ hu' => cases hu.symm.trans hu'
  | child hp hu _ ih =>
    cases h' with
    | root hu' => cases hu.symm.trans hu'
    | child hp' hu' hq' =>
      cases hd _ _ hp hp' (Option.some.inj (hu.symm.trans hu'))
      rw [ih hq']

end EntityType

open EntityType (Completes Distinct)

namespace Registry

/-! ## Rounds -/

/-- Only complete types are registered, and what is declared is registered or pending. -/
structure Partway (declared : EntityType → Prop) (r : Registry) (pending : List EntityType) :
    Prop where
  ascending : r.names.Pairwise (· < ·)
  held : ∀ name t, r.find? name = some t →
    t.Sound ∧ ∃ u, declared u ∧ u.name = name ∧ Completes declared u t
  present : ∀ u, declared u → u ∈ pending ∨ r.contains u.name = true
  pending : ∀ u ∈ pending, declared u

/-- The parent of the type is registered, if it has one. -/
abbrev IsReady (r : Registry) (t : EntityType) : Prop := t.parent.all r.contains = true

variable {declared : EntityType → Prop} {r r' : Registry}

theorem inherit_of_not_isReady {t : EntityType} (h : ¬ r.IsReady t) :
    ∃ e, r.inherit t = .error e := by
  unfold IsReady at h
  unfold inherit
  cases hp : t.parent with
  | none => simp [hp] at h
  | some p =>
    have hnone : r.find? p = none := by simpa [hp, contains] using h
    simp [hnone]

theorem register_of_not_isReady {t : EntityType} (h : ¬ r.IsReady t) :
    ∃ e, r.register t = .error e := by
  obtain ⟨e, he⟩ := inherit_of_not_isReady h
  rw [register, he]
  exact ⟨e, rfl⟩

namespace Partway

variable {pending : List EntityType}

theorem inherit (h : Partway declared r pending) {t : EntityType} (ht : r.IsReady t) :
    ∃ t', r.inherit t = .ok t' ∧ Completes declared t t' := by
  unfold IsReady at ht
  unfold Registry.inherit
  cases hp : t.parent with
  | none => exact ⟨t, rfl, .root hp⟩
  | some p =>
    rw [hp, Option.all_some, contains] at ht
    obtain ⟨q, hq⟩ := Option.isSome_iff_exists.1 ht
    obtain ⟨-, u, hu, rfl, hc⟩ := h.held p q hq
    simp only [hq]
    exact ⟨_, rfl, .child hu hp hc⟩

/-- A type that is registered is no longer pending. -/
theorem register {t t' : EntityType} {skipped ts : List EntityType}
    (h : Partway declared r (skipped ++ t :: ts)) (hready : r.IsReady t)
    (hr : r.register t = .ok (t', r')) : Partway declared r' (skipped ++ ts) := by
  obtain ⟨hinherit, hcheck, rfl⟩ := register_eq_ok_iff.1 hr
  obtain ⟨c, hc, hcompletes⟩ := h.inherit hready
  cases hinherit.symm.trans hc
  have hname := hcompletes.name_eq
  have hfind : ∀ name, Registry.find? ⟨Sorted.put t'.name t' r.types⟩ name =
      if name = t'.name then some t' else r.find? name := Sorted.lookup_put _ _ _
  have ht : declared t := h.pending t (by simp)
  refine ⟨?_, fun name q hq => ?_, fun u hu => ?_, fun u hu => h.pending u ?_⟩
  · rw [names, Sorted.map_fst_put]
    exact Sorted.pairwise_insert _ h.ascending
  · rw [hfind] at hq
    split at hq
    · next heq =>
      cases hq
      exact ⟨EntityType.sound_of_check hcheck, t, ht, hname.symm.trans heq.symm, hcompletes⟩
    · exact h.held name q hq
  · rw [contains, hfind]
    split
    · exact .inr rfl
    · next hne =>
      refine (h.present u hu).imp_left fun hmem => ?_
      have hut : u ≠ t := by
        rintro rfl
        exact hne hname.symm
      simpa [hut] using hmem
  · simp only [List.mem_append, List.mem_cons] at hu ⊢
    exact hu.imp_right .inr

/-- If types are pending that can be completed, one of them is ready. -/
theorem exists_ready (h : Partway declared r pending) {u t : EntityType} (hu : u ∈ pending)
    (hc : Completes declared u t) : ∃ v ∈ pending, r.IsReady v := by
  induction hc with
  | root hp => exact ⟨_, hu, by simp [IsReady, hp]⟩
  | @child u p q hd hp _ ih =>
    by_cases hpending : p ∈ pending
    · exact ih hpending
    · refine ⟨u, hu, ?_⟩
      rw [IsReady, hp]
      exact (h.present p hd).resolve_left hpending

end Partway

/-- A round: the types that are ready when their turn comes are registered, the others are left. -/
inductive Round : Registry → List EntityType → Registry → List EntityType → Prop
  | nil {r : Registry} : Round r [] r []
  | register {r r₁ r' : Registry} {t t' : EntityType} {ts rest : List EntityType} :
    r.IsReady t → r.register t = .ok (t', r₁) → Round r₁ ts r' rest → Round r (t :: ts) r' rest
  | defer {r r' : Registry} {t : EntityType} {ts rest : List EntityType} :
    ¬ r.IsReady t → Round r ts r' rest → Round r (t :: ts) r' (t :: rest)

theorem registerReady_eq_ok_iff {ts rest : List EntityType} :
    r.registerReady ts = .ok (r', rest) ↔ Round r ts r' rest := by
  constructor
  · intro h
    induction ts generalizing r rest with
    | nil =>
      cases h
      exact .nil
    | cons t ts ih =>
      rw [registerReady] at h
      split at h
      · next hready =>
        obtain ⟨⟨t', r₁⟩, hreg, h⟩ := Outcome.bind_eq_ok_iff.1 h
        exact .register hready hreg (ih h)
      · next hready =>
        obtain ⟨⟨r₁, rest₁⟩, hround, h⟩ := Outcome.bind_eq_ok_iff.1 h
        cases h
        exact .defer hready (ih hround)
  · intro h
    induction h with
    | nil => rfl
    | register hready hreg _ ih =>
      rw [registerReady, if_pos hready, hreg]
      exact ih
    | defer hready _ ih =>
      rw [registerReady, if_neg hready, ih]
      rfl

namespace Round

variable {ts rest : List EntityType}

theorem partway (hround : Round r ts r' rest) (skipped : List EntityType)
    (h : Partway declared r (skipped ++ ts)) : Partway declared r' (skipped ++ rest) := by
  induction hround generalizing skipped with
  | nil => exact h
  | register hready hreg _ ih => exact ih skipped (h.register hready hreg)
  | defer _ _ ih =>
    rw [List.append_cons] at h ⊢
    exact ih _ h

theorem length_le (hround : Round r ts r' rest) : rest.length ≤ ts.length := by
  induction hround with
  | nil => exact le_rfl
  | register _ _ _ ih => exact ih.trans (Nat.le_succ _)
  | defer _ _ ih => exact Nat.succ_le_succ ih

/-- A round in which some type is ready leaves fewer types. -/
theorem length_lt (hround : Round r ts r' rest) (h : ∃ t ∈ ts, r.IsReady t) :
    rest.length < ts.length := by
  induction hround with
  | nil =>
    obtain ⟨t, ht, -⟩ := h
    cases ht
  | register _ _ hround => exact Nat.lt_succ_of_le hround.length_le
  | defer hready _ ih =>
    obtain ⟨u, hu, hur⟩ := h
    rcases List.mem_cons.1 hu with rfl | hu
    · exact absurd hur hready
    · exact Nat.succ_lt_succ (ih ⟨u, hu, hur⟩)

/-- A round that leaves as many types as there were leaves all as it was. -/
theorem eq_of_length_eq (hround : Round r ts r' rest) (h : rest.length = ts.length) :
    r' = r ∧ rest = ts := by
  induction hround with
  | nil => exact ⟨rfl, rfl⟩
  | register _ _ hround =>
    have := hround.length_le
    rw [List.length_cons] at h
    omega
  | defer _ _ ih =>
    obtain ⟨hr, hrest⟩ := ih (Nat.succ.inj h)
    exact ⟨hr, congrArg _ hrest⟩

/-- A round goes through if all complete types keep the rules. -/
theorem exists_of_sound (skipped : List EntityType) (h : Partway declared r (skipped ++ ts))
    (hsound : ∀ u t, declared u → Completes declared u t → t.Sound) :
    ∃ r' rest, Round r ts r' rest := by
  induction ts generalizing r skipped with
  | nil => exact ⟨r, [], .nil⟩
  | cons t ts ih =>
    by_cases hready : r.IsReady t
    · obtain ⟨t', hinherit, hc⟩ := h.inherit hready
      have ht := hsound t t' (h.pending t (by simp)) hc
      have hreg := register_eq_ok_iff.2 ⟨hinherit, EntityType.check_of_sound ht, rfl⟩
      obtain ⟨r', rest, hround⟩ := ih skipped (h.register hready hreg)
      exact ⟨r', rest, .register hready hreg hround⟩
    · rw [List.append_cons] at h
      obtain ⟨r', rest, hround⟩ := ih _ h
      exact ⟨r', t :: rest, .defer hready hround⟩

end Round

/-! ## All rounds -/

theorem registerAll_nil (n : Nat) (r : Registry) : registerAll n r [] = .ok r := by
  cases n <;> rw [registerAll]

theorem registerAll_zero (r : Registry) (t : EntityType) (ts : List EntityType) :
    registerAll 0 r (t :: ts) = (·.2) <$> r.register t := by
  rw [registerAll]
  cases r.register t <;> rfl

theorem registerAll_succ (n : Nat) (r : Registry) (t : EntityType) (ts : List EntityType) :
    registerAll (n + 1) r (t :: ts) = r.registerReady (t :: ts) >>= fun x =>
      if x.2.length = (t :: ts).length then registerAll 0 x.1 x.2 else registerAll n x.1 x.2 := by
  rw [registerAll]
  intro h
  cases h

/-- What rounds without a bound on their number end with: they end when no type is pending, when a
type is refused, or when a round brings none in, and then the first type left over is refused. -/
inductive Ends : Registry → List EntityType → Except Error Registry → Prop
  | done {r : Registry} : Ends r [] (.ok r)
  | refused {r : Registry} {t : EntityType} {ts : List EntityType} {e : Error} :
    r.registerReady (t :: ts) = .error e → Ends r (t :: ts) (.error e)
  | stuck {r r' : Registry} {t t' : EntityType} {ts rest : List EntityType} :
    r.registerReady (t :: ts) = .ok (r', t' :: rest) → rest.length = ts.length →
      Ends r (t :: ts) ((·.2) <$> r'.register t')
  | next {r r' : Registry} {t : EntityType} {ts rest : List EntityType}
    {x : Except Error Registry} :
    r.registerReady (t :: ts) = .ok (r', rest) → rest.length ≠ (t :: ts).length →
      Ends r' rest x → Ends r (t :: ts) x

/-- Rounds come to an end, and with one for each type none is lacking. -/
theorem ends_iff {n : Nat} {ts : List EntityType} (hn : ts.length ≤ n)
    {x : Except Error Registry} : Ends r ts x ↔ x = registerAll n r ts := by
  constructor
  · intro h
    induction h generalizing n with
    | done => rw [registerAll_nil]
    | refused hround =>
      obtain ⟨n, rfl⟩ := Nat.exists_eq_succ_of_ne_zero (Nat.ne_zero_of_lt hn)
      rw [registerAll_succ, hround]
      rfl
    | stuck hround hlen =>
      obtain ⟨n, rfl⟩ := Nat.exists_eq_succ_of_ne_zero (Nat.ne_zero_of_lt hn)
      rw [registerAll_succ, hround, ← registerAll_zero]
      exact (if_pos (congrArg Nat.succ hlen)).symm
    | next hround hlen _ ih =>
      obtain ⟨n, rfl⟩ := Nat.exists_eq_succ_of_ne_zero (Nat.ne_zero_of_lt hn)
      have hlt := lt_of_le_of_ne (registerReady_eq_ok_iff.1 hround).length_le hlen
      rw [registerAll_succ, hround]
      exact (ih (Nat.le_of_lt_succ (hlt.trans_le hn))).trans (if_neg hlen).symm
  · rintro rfl
    induction n generalizing r ts with
    | zero =>
      cases List.eq_nil_of_length_eq_zero (Nat.le_zero.1 hn)
      rw [registerAll_nil]
      exact .done
    | succ n ih =>
      cases ts with
      | nil =>
        rw [registerAll_nil]
        exact .done
      | cons t ts =>
        rw [registerAll_succ]
        cases hround : r.registerReady (t :: ts) with
        | error e => exact .refused hround
        | ok x =>
          obtain ⟨r₁, rest⟩ := x
          show Ends r (t :: ts) (ite (rest.length = _) _ _)
          split_ifs with hlen
          · cases rest with
            | nil => cases hlen
            | cons t' rest =>
              rw [registerAll_zero]
              exact .stuck hround (Nat.succ.inj hlen)
          · have hlt := lt_of_le_of_ne (registerReady_eq_ok_iff.1 hround).length_le hlen
            exact .next hround hlen (ih (Nat.le_of_lt_succ (hlt.trans_le hn)))

/-- If the rounds go through, all types are registered. -/
theorem partway_of_registerAll {n : Nat} {ts : List EntityType} (hn : ts.length ≤ n)
    (h : Partway declared r ts) (hr : registerAll n r ts = .ok r') : Partway declared r' [] := by
  induction n generalizing r ts with
  | zero =>
    cases List.eq_nil_of_length_eq_zero (Nat.le_zero.1 hn)
    rw [registerAll_nil] at hr
    cases hr
    exact h
  | succ n ih =>
    cases ts with
    | nil =>
      rw [registerAll_nil] at hr
      cases hr
      exact h
    | cons t ts =>
      rw [registerAll_succ, Outcome.bind_eq_ok_iff] at hr
      obtain ⟨⟨r₁, rest⟩, hready, hr⟩ := hr
      have hround := registerReady_eq_ok_iff.1 hready
      dsimp only at hr
      split at hr
      · next hlen =>
        -- a round that brings none in is the last one, and the first type left has no parent
        obtain ⟨rfl, rfl⟩ := hround.eq_of_length_eq hlen
        have hstuck : ¬ r₁.IsReady t := fun hready =>
          absurd hlen (hround.length_lt ⟨t, List.mem_cons_self, hready⟩).ne
        obtain ⟨e, he⟩ := register_of_not_isReady hstuck
        rw [registerAll, he] at hr
        cases hr
      · next hlen =>
        have hlt := lt_of_le_of_ne hround.length_le hlen
        exact ih (Nat.le_of_lt_succ (hlt.trans_le hn)) (hround.partway [] h) hr

theorem Round.built {ts rest : List EntityType} (hround : Round r ts r' rest) (h : r.Built) :
    r'.Built := by
  induction hround with
  | nil => exact h
  | register _ hreg _ ih => exact ih (h.register hreg)
  | defer _ _ ih => exact ih h

theorem built_of_registerAll {n : Nat} {ts : List EntityType} (h : r.Built)
    (hr : registerAll n r ts = .ok r') : r'.Built := by
  have hzero : ∀ {r : Registry} {ts}, r.Built → registerAll 0 r ts = .ok r' → r'.Built := by
    intro r ts h hr
    cases ts with
    | nil =>
      rw [registerAll_nil] at hr
      cases hr
      exact h
    | cons t ts =>
      rw [registerAll] at hr
      obtain ⟨⟨t', r₁⟩, hreg, hr⟩ := Outcome.bind_eq_ok_iff.1 hr
      cases hr
      exact h.register hreg
  induction n generalizing r ts with
  | zero => exact hzero h hr
  | succ n ih =>
    cases ts with
    | nil =>
      rw [registerAll_nil] at hr
      cases hr
      exact h
    | cons t ts =>
      rw [registerAll_succ, Outcome.bind_eq_ok_iff] at hr
      obtain ⟨⟨r₁, rest⟩, hready, hr⟩ := hr
      have hbuilt := (registerReady_eq_ok_iff.1 hready).built h
      dsimp only at hr
      split at hr
      · exact hzero hbuilt hr
      · exact ih hbuilt hr

/-- If all declared types can be completed to ones that keep the rules, the rounds go through. -/
theorem exists_registerAll {n : Nat} {ts : List EntityType} (hn : ts.length ≤ n)
    (hd : Distinct declared) (h : Partway declared r ts)
    (hall : ∀ u, declared u → ∃ t, Completes declared u t ∧ t.Sound) :
    ∃ r', registerAll n r ts = .ok r' := by
  have hsound : ∀ u t, declared u → Completes declared u t → t.Sound := by
    intro u t hu hc
    obtain ⟨t', hc', ht'⟩ := hall u hu
    rwa [hc.unique hd hc']
  induction n generalizing r ts with
  | zero =>
    cases List.eq_nil_of_length_eq_zero (Nat.le_zero.1 hn)
    exact ⟨r, registerAll_nil 0 r⟩
  | succ n ih =>
    cases ts with
    | nil => exact ⟨r, registerAll_nil (n + 1) r⟩
    | cons t ts =>
      obtain ⟨r₁, rest, hround⟩ := Round.exists_of_sound [] h hsound
      obtain ⟨c, hc, -⟩ := hall t (h.pending t List.mem_cons_self)
      have hlt := hround.length_lt (h.exists_ready List.mem_cons_self hc)
      obtain ⟨r', hr'⟩ := ih (Nat.le_of_lt_succ (hlt.trans_le hn)) (hround.partway [] h)
      refine ⟨r', ?_⟩
      rw [registerAll_succ, registerReady_eq_ok_iff.2 hround]
      exact (if_neg hlt.ne).trans hr'

/-- The registry holds the declared types with what their chains of parents give them. -/
structure Describes (declared : EntityType → Prop) (r : Registry) : Prop where
  ascending : r.names.Pairwise (· < ·)
  find?_iff : ∀ name t, r.find? name = some t ↔
    ∃ u, declared u ∧ u.name = name ∧ Completes declared u t

theorem Describes.unique (h : Describes declared r) (h' : Describes declared r') : r = r' := by
  have hlookup : ∀ name, r.types.lookup name = r'.types.lookup name := by
    intro name
    ext t
    exact (h.find?_iff name t).trans (h'.find?_iff name t).symm
  cases r
  cases r'
  exact congrArg _ (Sorted.eq_of_lookup h.ascending h'.ascending hlookup)

theorem Partway.completed (h : Partway declared r []) (hd : Distinct declared) {u : EntityType}
    (hu : declared u) : ∃ t, r.find? u.name = some t ∧ Completes declared u t ∧ t.Sound := by
  obtain ⟨t, ht⟩ := Option.isSome_iff_exists.1 ((h.present u hu).resolve_left List.not_mem_nil)
  obtain ⟨hsound, v, hv, hname, hc⟩ := h.held _ _ ht
  cases hd v u hv hu hname
  exact ⟨t, ht, hc, hsound⟩

theorem Partway.describes (h : Partway declared r []) (hd : Distinct declared) :
    Describes declared r := by
  refine ⟨h.ascending, fun name t => ⟨fun ht => (h.held name t ht).2, ?_⟩⟩
  rintro ⟨u, hu, rfl, hc⟩
  obtain ⟨t', ht', hc', -⟩ := h.completed hd hu
  rw [ht', hc.unique hd hc']

theorem Partway.start (ts : List EntityType) : Partway (· ∈ ts) {} ts where
  ascending := .nil
  held := fun _ _ h => by cases h
  present := fun _ hu => .inl hu
  pending := fun _ hu => hu

/-- **The rounds go through exactly if each type can be completed to one that keeps the rules, and
then all of them are registered so.** -/
theorem registerAll_eq_ok_iff {n : Nat} {ts : List EntityType} (hn : ts.length ≤ n)
    (hd : Distinct (· ∈ ts)) :
    registerAll n {} ts = .ok r ↔
      (∀ u ∈ ts, ∃ t, Completes (· ∈ ts) u t ∧ t.Sound) ∧ Describes (· ∈ ts) r := by
  have hstart := Partway.start ts
  constructor
  · intro hr
    have hend := partway_of_registerAll hn hstart hr
    refine ⟨fun u hu => ?_, hend.describes hd⟩
    obtain ⟨t, -, ht⟩ := hend.completed hd hu
    exact ⟨t, ht⟩
  · rintro ⟨hall, hr⟩
    obtain ⟨r', hr'⟩ := exists_registerAll hn hd hstart hall
    have hend := (partway_of_registerAll hn hstart hr').describes hd
    rw [hr', hend.unique hr]

end Registry

/-! ## Declared types -/

namespace Schema

/-- The name stands for a scalar type: a built-in one, or an enumeration. -/
def IsScalar (s : Schema) (name : String) : Prop :=
  (ScalarType.builtin? name).isSome ∨ ∃ enum ∈ s.enums, enum.name = name

/-- The schema declares the entity type. -/
def Declares (s : Schema) (u : EntityType) : Prop := ∃ e ∈ s.entities, s.entityType e = .ok u

/-- The parents of the type lead within the schema to a type without one. -/
inductive Rooted (s : Schema) : Entity → Prop
  | root {e : Entity} : e.parent = none → Rooted s e
  | child {e p : Entity} : p ∈ s.entities → e.parent = some p.name → Rooted s p → Rooted s e

/-- What a schema has to comply with. -/
structure Loadable (s : Schema) : Prop where
  /-- The type of a property is a scalar type, or an entity type of the schema. -/
  type : ∀ e ∈ s.entities, ∀ p ∈ e.properties,
    s.IsScalar p.type ∨ ∃ e' ∈ s.entities, e'.name = p.type
  /-- The keys of a map are scalars. -/
  key : ∀ e ∈ s.entities, ∀ p ∈ e.properties, p.shape = .map → s.IsScalar (p.key.getD "text")
  rooted : ∀ e ∈ s.entities, s.Rooted e
  /-- Each type keeps the rules, with all that it inherits. -/
  sound : ∀ u t, s.Declares u → Completes s.Declares u t → t.Sound

variable {s : Schema}

theorem isSome_scalar?_iff {name : String} : (s.scalar? name).isSome = true ↔ s.IsScalar name := by
  simp [scalar?, enum?, IsScalar]

theorem exists_type_iff {name : String} :
    (∃ t, s.type name = .ok t) ↔ s.IsScalar name ∨ ∃ e ∈ s.entities, e.name = name := by
  rw [← isSome_scalar?_iff, type]
  cases s.scalar? name with
  | some t => simp
  | none => by_cases h : ∃ e ∈ s.entities, e.name = name <;> simp [h]

theorem exists_keyType_iff {owner : String} {p : Property} :
    (∃ t, s.keyType owner p = .ok t) ↔ s.IsScalar (p.key.getD "text") := by
  rw [← isSome_scalar?_iff, keyType]
  cases s.scalar? (p.key.getD "text") <;> simp

theorem exists_property_iff {owner : String} {p : Property} :
    (∃ q, s.property owner p = .ok q) ↔
      (s.IsScalar p.type ∨ ∃ e ∈ s.entities, e.name = p.type) ∧
        (p.shape = .map → s.IsScalar (p.key.getD "text")) := by
  rw [← exists_type_iff, ← @exists_keyType_iff _ owner, property]
  cases p.shape with
  | single | list => simp [Outcome.map_eq_ok_iff]
  | map =>
    simp only [Outcome.bind_eq_ok_iff, Outcome.pure_eq_ok_iff, pure_bind, true_implies]
    constructor
    · rintro ⟨q, t, ht, k, hk, -⟩
      exact ⟨⟨t, ht⟩, k, hk⟩
    · rintro ⟨⟨t, ht⟩, k, hk⟩
      exact ⟨_, t, ht, k, hk, rfl⟩

theorem exists_entityType_iff {e : Entity} :
    (∃ u, s.entityType e = .ok u) ↔ ∀ p ∈ e.properties, ∃ q, s.property e.name p = .ok q := by
  rw [← Outcome.exists_mapM_eq_ok_iff, entityType]
  simp [Outcome.map_eq_ok_iff]

theorem entityType_spec {e : Entity} {u : EntityType} (h : s.entityType e = .ok u) :
    u.name = e.name ∧ u.parent = e.parent := by
  obtain ⟨ps, -, h⟩ := Outcome.bind_eq_ok_iff.1 h
  cases h
  exact ⟨rfl, rfl⟩

theorem distinct_declares (h : (s.entities.map (·.name)).Nodup) : Distinct s.Declares := by
  rintro u v ⟨e, he, hu⟩ ⟨f, hf, hv⟩ hname
  rw [(entityType_spec hu).1, (entityType_spec hv).1] at hname
  cases List.inj_on_of_nodup_map h he hf hname
  exact Except.ok.inj (hu.symm.trans hv)

theorem mem_eq_declares {ts : List EntityType} (h : s.entities.mapM s.entityType = .ok ts) :
    (· ∈ ts) = s.Declares := by
  have hall := Outcome.mapM_eq_ok_iff.1 h
  funext u
  refine propext ⟨fun hu => Lists.exists_left_of_mem hall hu, ?_⟩
  rintro ⟨e, he, hu⟩
  obtain ⟨v, hv, heq⟩ := Lists.exists_right_of_mem hall he
  cases hu.symm.trans heq
  exact hv

/-- A type can be completed if its parents lead to a type without one. -/
theorem rooted_iff (hall : ∀ e ∈ s.entities, ∃ u, s.entityType e = .ok u) {e : Entity}
    {u : EntityType} (hu : s.entityType e = .ok u) :
    s.Rooted e ↔ ∃ t, Completes s.Declares u t := by
  constructor
  · intro h
    induction h generalizing u with
    | root he => exact ⟨u, .root ((entityType_spec hu).2.trans he)⟩
    | @child e p hp he _ ih =>
      obtain ⟨v, hv⟩ := hall p hp
      obtain ⟨q, hq⟩ := ih hv
      have hparent : u.parent = some v.name := by
        rw [(entityType_spec hu).2, he, (entityType_spec hv).1]
      exact ⟨_, .child ⟨p, hp, hv⟩ hparent hq⟩
  · rintro ⟨t, h⟩
    induction h generalizing e with
    | root hp => exact .root ((entityType_spec hu).2.symm.trans hp)
    | child hd hp _ ih =>
      obtain ⟨f, hf, hv⟩ := hd
      refine .child hf ?_ (ih hv)
      rw [← (entityType_spec hu).2, hp, (entityType_spec hv).1]

/-- A schema is loadable if its types are known and can be completed to ones that keep the rules. -/
theorem loadable_iff (hd : Distinct s.Declares) :
    s.Loadable ↔ (∀ e ∈ s.entities, ∃ u, s.entityType e = .ok u) ∧
      ∀ u, s.Declares u → ∃ t, Completes s.Declares u t ∧ t.Sound := by
  constructor
  · intro h
    have hall : ∀ e ∈ s.entities, ∃ u, s.entityType e = .ok u := fun e he =>
      exists_entityType_iff.2 fun p hp => exists_property_iff.2 ⟨h.type e he p hp, h.key e he p hp⟩
    refine ⟨hall, fun u hu => ?_⟩
    obtain ⟨e, he, heq⟩ := hu
    obtain ⟨t, ht⟩ := (rooted_iff hall heq).1 (h.rooted e he)
    exact ⟨t, ht, h.sound u t ⟨e, he, heq⟩ ht⟩
  · rintro ⟨hall, hcomplete⟩
    have hproperty : ∀ e ∈ s.entities, ∀ p ∈ e.properties, _ := fun e he p hp =>
      exists_property_iff.1 (exists_entityType_iff.1 (hall e he) p hp)
    refine ⟨fun e he p hp => (hproperty e he p hp).1, fun e he p hp => (hproperty e he p hp).2,
      fun e he => ?_, fun u t hu hc => ?_⟩
    · obtain ⟨u, hu⟩ := hall e he
      exact (rooted_iff hall hu).2 ((hcomplete u ⟨e, he, hu⟩).imp fun _ => And.left)
    · obtain ⟨t', hc', hsound⟩ := hcomplete u hu
      rwa [hc.unique hd hc']

/-! ## Permutations -/

section Permutations

variable {es : List Entity} (hperm : es.Perm s.entities)
include hperm

theorem entityType_perm (e : Entity) :
    { s with entities := es }.entityType e = s.entityType e := by
  have htype : { s with entities := es }.type = s.type := by
    funext name
    unfold type
    rw [hperm.any_eq]
    rfl
  unfold entityType property
  rw [htype]
  rfl

theorem declares_perm : { s with entities := es }.Declares = s.Declares := by
  funext u
  simp only [Declares, entityType_perm hperm, hperm.mem_iff]

theorem loadable_perm (hd : Distinct s.Declares) :
    { s with entities := es }.Loadable ↔ s.Loadable := by
  have hdeclares := declares_perm hperm
  rw [loadable_iff hd, loadable_iff (hdeclares ▸ hd), hdeclares]
  simp only [entityType_perm hperm, hperm.mem_iff]

end Permutations

end Schema

namespace Registry

/-- What loading a schema ends with, in rounds without a bound on their number. -/
def Loads (s : Schema) (x : Except Error Registry) : Prop :=
  match s.entities.mapM s.entityType with
  | .error e => x = .error e
  | .ok ts => Ends {} ts x

theorem loads_iff {s : Schema} {x : Except Error Registry} : Loads s x ↔ x = ofSchema s := by
  unfold Loads ofSchema
  cases s.entities.mapM s.entityType with
  | error e => exact Iff.rfl
  | ok ts => exact ends_iff le_rfl

/-- The registry of a schema is built by registering types. -/
theorem built_of_ofSchema {s : Schema} {r : Registry} (h : ofSchema s = .ok r) : r.Built := by
  obtain ⟨ts, -, h⟩ := Outcome.bind_eq_ok_iff.1 h
  exact built_of_registerAll .empty h

/-- A schema that loads is loadable, and the registry holds what it declares. -/
theorem ofSchema_eq_ok_iff {s : Schema} (hnames : (s.entities.map (·.name)).Nodup)
    {r : Registry} : ofSchema s = .ok r ↔ s.Loadable ∧ Describes s.Declares r := by
  have hd := Schema.distinct_declares hnames
  rw [Schema.loadable_iff hd, ← Outcome.exists_mapM_eq_ok_iff, ofSchema, Outcome.bind_eq_ok_iff]
  have hround : ∀ ts, s.entities.mapM s.entityType = .ok ts →
      (registerAll ts.length {} ts = .ok r ↔
        (∀ u, s.Declares u → ∃ t, Completes s.Declares u t ∧ t.Sound) ∧
          Describes s.Declares r) := by
    intro ts hts
    have hmem := Schema.mem_eq_declares hts
    rw [← hmem] at hd ⊢
    exact registerAll_eq_ok_iff le_rfl hd
  constructor
  · rintro ⟨ts, hts, hr⟩
    obtain ⟨hcomplete, hdescribes⟩ := (hround ts hts).1 hr
    exact ⟨⟨⟨ts, hts⟩, hcomplete⟩, hdescribes⟩
  · rintro ⟨⟨⟨ts, hts⟩, hcomplete⟩, hdescribes⟩
    exact ⟨ts, hts, (hround ts hts).2 ⟨hcomplete, hdescribes⟩⟩

theorem exists_ofSchema {s : Schema} (hnames : (s.entities.map (·.name)).Nodup)
    (h : s.Loadable) : ∃ r, ofSchema s = .ok r := by
  have hd := Schema.distinct_declares hnames
  obtain ⟨hall, hcomplete⟩ := (Schema.loadable_iff hd).1 h
  obtain ⟨ts, hts⟩ := Outcome.exists_mapM_eq_ok_iff.2 hall
  rw [← Schema.mem_eq_declares hts] at hd hcomplete
  obtain ⟨r, hr⟩ := exists_registerAll le_rfl hd (Partway.start ts) hcomplete
  exact ⟨r, Outcome.bind_eq_ok_iff.2 ⟨ts, hts, hr⟩⟩

/-- **A schema loads in whatever order its types are declared, exactly if it is loadable**, and
the registry holds what it declares. The rounds come to an end by themselves. -/
theorem ofSchema_perm {s : Schema} {es : List Schema.Entity} (hperm : es.Perm s.entities)
    (hnames : (s.entities.map (·.name)).Nodup) :
    (∀ x, Loads s x ↔ x = ofSchema s) ∧
    (∀ x, Loads { s with entities := es } x ↔ x = ofSchema { s with entities := es }) ∧
    (∀ r, ofSchema { s with entities := es } = .ok r ↔ ofSchema s = .ok r) ∧
    ((∃ r, ofSchema s = .ok r) ↔ s.Loadable) ∧
    ∀ r, ofSchema s = .ok r → Describes s.Declares r := by
  have hd := Schema.distinct_declares hnames
  have hnames' : (es.map (·.name)).Nodup := (hperm.map _).nodup_iff.2 hnames
  refine ⟨fun _ => loads_iff, fun _ => loads_iff, ?_, ?_, ?_⟩
  · intro r
    rw [ofSchema_eq_ok_iff hnames, ofSchema_eq_ok_iff hnames', Schema.loadable_perm hperm hd,
      Schema.declares_perm hperm]
  · refine ⟨?_, exists_ofSchema hnames⟩
    rintro ⟨r, hr⟩
    exact ((ofSchema_eq_ok_iff hnames).1 hr).1
  · intro r hr
    exact ((ofSchema_eq_ok_iff hnames).1 hr).2

end Registry

namespace Schema

/-- Addresses, of which those with a postcode are declared first. -/
def addresses : Schema := {
  entities := [
    { name := "AddressWithPostcode", parent := some "Address",
      properties := [{ name := "postcode", type := "text" }] },
    { name := "Address", properties := [{ name := "city", type := "text" }] }] }

theorem ofSchema_perm_addresses :
    addresses.entities.reverse.Perm addresses.entities ∧
      (addresses.entities.map (·.name)).Nodup ∧ (Registry.ofSchema addresses).isOk = true ∧
      Registry.ofSchema { addresses with entities := addresses.entities.reverse } =
        Registry.ofSchema addresses := by
  have hperm := List.reverse_perm addresses.entities
  have hnames : (addresses.entities.map (·.name)).Nodup := by decide
  have hok : (Registry.ofSchema addresses).isOk = true := by decide +kernel
  refine ⟨hperm, hnames, hok, ?_⟩
  obtain ⟨r, hr⟩ := Outcome.exists_of_isOk hok
  rw [hr]
  exact ((Registry.ofSchema_perm hperm hnames).2.2.1 r).2 hr

end Schema

end FlatGraph
