import FlatGraph.Proofs.Model.Schema

/-!
# Histories of registrations

**Theorem (`lawful_serveEach`).** Types are registered one after another in a registry that
starts empty, and some of the calls fail. Each type that is stored then stands under its own name
and is `Ruled`, and a call that fails leaves the registry as it was. If no name was registered
twice, each stored type is a declared one with what it inherits:

* its properties are those of the parent in their places, its own ones instead of those that they
  override, and behind them the rest of its own (`Inherits`), and
* its keyspace is the one that the nearest type of its lineage declares, or else the name of the
  topmost type (`keyspaceAlong`).

What a call does is said twice: `register` yields a new registry, `registerIn` changes one in
place. They come to the same (`serve_eq`). For the second half, the history is
a loading that is under way (`Partway`), with the successful calls that are to come as pending.
-/

namespace FlatGraph

namespace EntityType

/-! ## Rules -/

/-- The rules for a stored type. -/
structure Ruled (t : EntityType) : Prop where
  keyspace_ne_empty : t.keyspace ≠ ""
  no_dot : '.' ∉ t.keyspace.toList
  no_colon : ':' ∉ t.keyspace.toList
  one_id : (t.properties.filter (·.isId)).length ≤ 1
  id : ∀ p ∈ t.properties, p.isId = true →
    (∃ type, p.shape = .single (.scalar type)) ∧ p.isReference = false
  constructorBound : ∀ p ∈ t.properties, p.isConstructorBound = true →
    ∃ type, p.shape = .single (.scalar type)
  indexed : ∀ p ∈ t.properties, p.isIndexed = true → ∃ type, p.shape = .single (.scalar type)
  reference : ∀ p ∈ t.properties, p.isReference = true → ∃ name, p.shape.type = .entity name

theorem Sound.ruled {t : EntityType} (h : t.Sound) : t.Ruled := by
  have hkeyspace := isKeyspace_iff.1 h.keyspace
  have hproperty := fun p hp => propertyViolation?_eq_none_iff.1 (h.property p hp)
  simp only [Shape.isSingleScalar_iff] at hproperty
  exact {
    keyspace_ne_empty := hkeyspace.1
    no_dot := hkeyspace.2.1
    no_colon := hkeyspace.2.2
    one_id := h.one_id
    id := fun p hp => (hproperty p hp).1
    constructorBound := fun p hp => (hproperty p hp).2.1
    indexed := fun p hp => (hproperty p hp).2.2.2
    reference := fun p hp => (hproperty p hp).2.2.1 }

/-! ## Overriding -/

/-- The names of properties. -/
def namesOf (ps : List Property) : List String := ps.map (·.name)

theorem namesOf_cons (p : Property) (ps : List Property) :
    namesOf (p :: ps) = p.name :: namesOf ps := rfl

theorem length_namesOf (ps : List Property) : (namesOf ps).length = ps.length := List.length_map _

/-- Of properties, the last one of the given name. -/
def lastNamed? (ps : List Property) (name : String) : Option Property :=
  ps.reverse.find? (·.name == name)

theorem lastNamed?_cons (p : Property) (ps : List Property) (name : String) :
    lastNamed? (p :: ps) name =
      (lastNamed? ps name).or (if p.name = name then some p else none) := by
  rw [lastNamed?, List.reverse_cons, List.find?_append, List.find?_singleton]
  simp only [beq_iff_eq]
  rfl

theorem namesOf_overrideWith (p : Property) (qs : List Property) :
    namesOf (overrideWith p qs) =
      if p.name ∈ namesOf qs then namesOf qs else namesOf qs ++ [p.name] := by
  induction qs with
  | nil => rfl
  | cons q qs ih =>
    unfold overrideWith
    by_cases h : q.name = p.name
    · simp [h, namesOf_cons]
    · have hmem : p.name ∈ namesOf (q :: qs) ↔ p.name ∈ namesOf qs := by
        rw [namesOf_cons, List.mem_cons, or_iff_right fun h' => h h'.symm]
      rw [if_neg h, namesOf_cons, ih]
      by_cases hp : p.name ∈ namesOf qs
      · rw [if_pos hp, if_pos (hmem.2 hp), namesOf_cons]
      · rw [if_neg hp, if_neg (hp ∘ hmem.1), namesOf_cons, List.cons_append]

/-- The property stands at the first place of its name, and the others stay where they are. -/
theorem getElem?_overrideWith (p : Property) (qs : List Property) (i : Nat) :
    (overrideWith p qs)[i]? = if i = (namesOf qs).idxOf p.name then some p else qs[i]? := by
  induction qs generalizing i with
  | nil => cases i <;> simp [overrideWith, namesOf]
  | cons q qs ih =>
    unfold overrideWith
    rw [namesOf_cons]
    by_cases h : q.name = p.name
    · cases i <;> simp [h]
    · rw [if_neg h, List.idxOf_cons_ne _ h]
      cases i <;> simp [ih]

theorem isPrefix_overrideWith (p : Property) (qs : List Property) :
    namesOf qs <+: namesOf (overrideWith p qs) := by
  rw [namesOf_overrideWith]
  split
  · exact List.prefix_rfl
  · exact List.prefix_append _ _

/-- The first place of an inherited name stays its first place. -/
theorem idxOf_overrideWith {name : String} {qs : List Property} (h : name ∈ namesOf qs)
    (p : Property) :
    (namesOf (overrideWith p qs)).idxOf name = (namesOf qs).idxOf name := by
  obtain ⟨added, hadded⟩ := isPrefix_overrideWith p qs
  rw [← hadded, List.idxOf_append_of_mem h]

/-- Properties of a type with those that it declares itself. -/
def override (own inherited : List Property) : List Property :=
  own.foldl (fun ps p => overrideWith p ps) inherited

theorem override_cons (p : Property) (own qs : List Property) :
    override (p :: own) qs = override own (overrideWith p qs) := rfl

theorem isPrefix_override (own qs : List Property) :
    namesOf qs <+: namesOf (override own qs) := by
  induction own generalizing qs with
  | nil => exact List.prefix_rfl
  | cons p own ih => exact (isPrefix_overrideWith p qs).trans (ih _)

/-- What stands in an inherited place: the property that overrides, if there is one and the place
is the first one of the name, and else the one that was inherited. -/
theorem getElem?_override_of_inherited (own : List Property) {qs : List Property} {i : Nat}
    {q : Property} (h : qs[i]? = some q) :
    (override own qs)[i]? =
      some (if i = (namesOf qs).idxOf q.name then (lastNamed? own q.name).getD q else q) := by
  induction own generalizing qs q with
  | nil =>
    rw [override, List.foldl_nil, h, lastNamed?]
    split <;> rfl
  | cons p own ih =>
    have hq : q.name ∈ namesOf qs := List.mem_map_of_mem (List.mem_of_getElem? h)
    have hplace := getElem?_overrideWith p qs i
    rw [override_cons, lastNamed?_cons]
    by_cases hname : p.name = q.name
    · rw [hname] at hplace
      by_cases hfirst : i = (namesOf qs).idxOf q.name
      · rw [if_pos hfirst] at hplace
        rw [ih hplace, hname, idxOf_overrideWith hq, if_pos hfirst, if_pos hfirst, if_pos rfl]
        cases lastNamed? own q.name <;> rfl
      · rw [if_neg hfirst, h] at hplace
        rw [ih hplace, idxOf_overrideWith hq, if_neg hfirst, if_neg hfirst]
    · -- a property of another name comes to stand in another place
      have hother : i ≠ (namesOf qs).idxOf p.name := by
        rintro rfl
        have hget : (namesOf qs)[(namesOf qs).idxOf p.name]? = some q.name := by
          exact (List.getElem?_map).trans (congrArg (Option.map (·.name)) h)
        obtain ⟨hlt, heq⟩ := List.getElem?_eq_some_iff.1 hget
        exact hname ((List.getElem_idxOf hlt).symm.trans heq)
      rw [if_neg hother, h] at hplace
      rw [ih hplace, idxOf_overrideWith hq, if_neg hname, Option.or_none]

/-- What stands behind the inherited places is declared by the type itself, under a name that it
does not inherit. -/
theorem own_of_getElem?_override {own qs : List Property} {i : Nat} {p : Property}
    (hi : qs.length ≤ i) (h : (override own qs)[i]? = some p) :
    lastNamed? own p.name = some p ∧ p.name ∉ namesOf qs := by
  induction own generalizing qs with
  | nil =>
    rw [override, List.foldl_nil, List.getElem?_eq_none hi] at h
    cases h
  | cons o own ih =>
    rw [override_cons] at h
    rw [lastNamed?_cons]
    have hnames := namesOf_overrideWith o qs
    have hlength := congrArg List.length hnames
    by_cases hmem : o.name ∈ namesOf qs
    · rw [if_pos hmem, length_namesOf, length_namesOf] at hlength
      rw [if_pos hmem] at hnames
      obtain ⟨hlast, hp⟩ := ih (hlength.le.trans hi) h
      exact ⟨by rw [hlast]; rfl, hnames ▸ hp⟩
    · rw [if_neg hmem, List.length_append, length_namesOf, length_namesOf] at hlength
      rw [if_neg hmem] at hnames
      rcases hi.eq_or_lt with rfl | hlt
      · -- the place right behind the inherited ones is the one of the first new name
        have hfirst : (namesOf qs).idxOf o.name = qs.length := by
          rw [List.idxOf_eq_length hmem, length_namesOf]
        have hplace := getElem?_overrideWith o qs qs.length
        rw [if_pos hfirst.symm] at hplace
        rw [getElem?_override_of_inherited own hplace, hnames, List.idxOf_append_of_notMem hmem,
          List.idxOf_cons_self, length_namesOf, Nat.add_zero, if_pos rfl] at h
        have hp : p.name = o.name := by
          cases hlast : lastNamed? own o.name with
          | none =>
            rw [hlast] at h
            cases h
            rfl
          | some x =>
            rw [hlast] at h
            cases h
            simpa using List.find?_some hlast
        rw [hp, if_pos rfl]
        refine ⟨?_, hmem⟩
        rw [← h]
        cases lastNamed? own o.name <;> rfl
      · obtain ⟨hlast, hp⟩ := ih (hlength.le.trans hlt) h
        rw [hnames] at hp
        exact ⟨by rw [hlast]; rfl, fun hq => hp (List.mem_append_left _ hq)⟩

/-- `t` has the properties that `u` declares and `q`, its parent, passes on. -/
structure Inherits (u q t : EntityType) : Prop where
  names : namesOf q.properties <+: namesOf t.properties
  inherited : ∀ i p, q.properties[i]? = some p → t.properties[i]? = some
    (if i = (namesOf q.properties).idxOf p.name then (lastNamed? u.properties p.name).getD p else p)
  own : ∀ i p, q.properties.length ≤ i → t.properties[i]? = some p →
    lastNamed? u.properties p.name = some p ∧ p.name ∉ namesOf q.properties

theorem inherits_extending (u q : EntityType) : Inherits u q (u.extending q) where
  names := isPrefix_override _ _
  inherited := fun _ _ => getElem?_override_of_inherited _
  own := fun _ _ => own_of_getElem?_override

/-! ## Lineages -/

/-- The ancestors of a type, from the parent to the topmost one. -/
inductive Lineage (declared : EntityType → Prop) : EntityType → List EntityType → Prop
  | root {u : EntityType} : u.parent = none → Lineage declared u []
  | child {u p : EntityType} {ps : List EntityType} :
    declared p → u.parent = some p.name → Lineage declared p ps → Lineage declared u (p :: ps)

/-- The keyspace that the nearest type of a lineage declares, or else the name of the topmost
one. -/
def keyspaceAlong (u : EntityType) (ancestors : List EntityType) : String :=
  ((u :: ancestors).findSome? (·.declaredKeyspace)).getD (ancestors.getLast?.getD u).name

theorem keyspaceAlong_cons (u p : EntityType) (ps : List EntityType) :
    keyspaceAlong u (p :: ps) = u.declaredKeyspace.getD (keyspaceAlong p ps) := by
  unfold keyspaceAlong
  rw [List.findSome?_cons, List.getLast?_cons]
  cases u.declaredKeyspace <;> rfl

theorem Completes.keyspace_eq {declared : EntityType → Prop} {u t : EntityType}
    (h : Completes declared u t) :
    ∃ ancestors, Lineage declared u ancestors ∧ t.keyspace = keyspaceAlong u ancestors := by
  induction h with
  | @root u hu =>
    refine ⟨[], .root hu, ?_⟩
    unfold keyspaceAlong EntityType.keyspace
    cases h : u.declaredKeyspace <;> simp [h]
  | @child u p q hp hu _ ih =>
    obtain ⟨ancestors, hlineage, hkeyspace⟩ := ih
    refine ⟨p :: ancestors, .child hp hu hlineage, ?_⟩
    rw [keyspaceAlong_cons, ← hkeyspace]
    rfl

theorem Completes.parent_eq {declared : EntityType → Prop} {u t : EntityType}
    (h : Completes declared u t) : t.parent = u.parent := by
  cases h <;> rfl

end EntityType

open EntityType

namespace Registry

/-! ## Registering in place -/

/-- A computation on a registry that may fail; what it has changed until then stays changed. -/
abbrev Registering := ExceptT Error (StateM Registry)

/-- Registers a type in place: looks its parent up, takes over what it passes on, checks the rules,
and only then stores it. -/
def registerIn (t : EntityType) : Registering EntityType := do
  let r ← getThe Registry
  let t ← liftExcept (r.inherit t)
  liftExcept t.check
  modify fun r => ⟨Sorted.put t.name t r.types⟩
  pure t

/-- What a call answers, and the registry after it. -/
def serve (r : Registry) (t : EntityType) : Except Error EntityType × Registry :=
  (registerIn t).run.run r

theorem run_liftExcept {α : Type} (x : Except Error α) (r : Registry) :
    (liftExcept x : Registering α).run.run r = (x, r) := by
  cases x <;> rfl

theorem run_bind {α β : Type} (x : Registering α) (f : α → Registering β) (r : Registry) :
    (x >>= f).run.run r = match x.run.run r with
      | (.ok a, r) => (f a).run.run r
      | (.error e, r) => (.error e, r) := by
  rw [ExceptT.run_bind, StateT.run_bind]
  rcases x.run.run r with ⟨_ | _, _⟩ <;> rfl

/-- In place, registering comes to the same, and what fails changes nothing. -/
theorem serve_eq (r : Registry) (t : EntityType) :
    r.serve t = match r.register t with
      | .ok (t', r') => (.ok t', r')
      | .error e => (.error e, r) := by
  have hget : (getThe Registry : Registering Registry).run.run r = (.ok r, r) := rfl
  unfold serve registerIn register
  rw [run_bind, hget]
  dsimp only
  rw [run_bind, run_liftExcept]
  cases r.inherit t with
  | error e => rfl
  | ok t' =>
    dsimp only
    rw [run_bind, run_liftExcept]
    simp only [bind, Except.bind]
    cases t'.check <;> rfl

/-! ## One call after another -/

/-- Registers types one after another, and goes on after a call that fails. -/
def serveEach (r : Registry) (ts : List EntityType) : Registry :=
  ts.foldl (fun r t => (r.serve t).2) r

/-- The types whose calls succeed, as they were declared. -/
def accepted (r : Registry) : List EntityType → List EntityType
  | [] => []
  | t :: ts =>
    match r.serve t with
    | (.ok _, r) => t :: accepted r ts
    | (.error _, r) => accepted r ts

variable {declared : EntityType → Prop} {r : Registry}

theorem Built.serve (h : r.Built) (t : EntityType) : (r.serve t).2.Built := by
  rw [serve_eq]
  cases hr : r.register t with
  | error e => exact h
  | ok x => exact h.register hr

theorem Built.serveEach (h : r.Built) (ts : List EntityType) : (r.serveEach ts).Built := by
  induction ts generalizing r with
  | nil => exact h
  | cons t ts ih => exact ih (h.serve t)

/-- Whatever is registered, what was declared by a call that succeeds is stored in the end, with
what it inherits. -/
theorem Partway.serveEach {ts : List EntityType} (h : Partway declared r (r.accepted ts)) :
    Partway declared (r.serveEach ts) [] := by
  induction ts generalizing r with
  | nil => exact h
  | cons t ts ih =>
    rw [Registry.serveEach, List.foldl_cons]
    unfold accepted at h
    rw [serve_eq] at h ⊢
    cases hr : r.register t with
    | error e =>
      rw [hr] at h
      exact ih h
    | ok x =>
      rw [hr] at h
      have hready : r.IsReady t := by
        by_contra hstuck
        obtain ⟨e, he⟩ := register_of_not_isReady hstuck
        cases he.symm.trans hr
      have hnext : Partway declared x.2 ([] ++ x.2.accepted ts) := .register h hready hr
      exact ih hnext

/-- The stored type `t` is the declared type `u` with what its lineage passes on. -/
structure Stands (declared : EntityType → Prop) (r : Registry) (u t : EntityType) : Prop where
  name : t.name = u.name
  parent : t.parent = u.parent
  topmost : u.parent = none → t = u
  keyspace : ∃ ancestors, Lineage declared u ancestors ∧ t.keyspace = keyspaceAlong u ancestors
  inherits : ∀ parent, t.parent = some parent → ∃ q, r.find? parent = some q ∧ Inherits u q t

theorem Partway.stands (h : Partway declared r []) (hd : Distinct declared) {u t : EntityType}
    (hc : Completes declared u t) : Stands declared r u t where
  name := hc.name_eq
  parent := hc.parent_eq
  topmost := fun hroot => by
    cases hc with
    | root => rfl
    | child _ hchild _ => cases hroot.symm.trans hchild
  keyspace := hc.keyspace_eq
  inherits := fun parent hparent => by
    rw [hc.parent_eq] at hparent
    cases hc with
    | root hroot => cases hroot.symm.trans hparent
    | @child _ p q hp hchild hq =>
      cases hchild.symm.trans hparent
      obtain ⟨q', hq', hc', -⟩ := h.completed hd hp
      cases hc'.unique hd hq
      exact ⟨q, hq', inherits_extending u q⟩

/-- **Whatever is registered in an empty registry, each type that is stored stands under its name
and keeps the rules, and a call that fails changes nothing. If no name was registered twice, each
type has what its lineage passes on.** -/
theorem lawful_serveEach (ts : List EntityType) :
    (∀ name t, (serveEach {} ts).find? name = some t → t.name = name ∧ t.Ruled) ∧
    (∀ t e, ((serveEach {} ts).serve t).1 = .error e →
      ((serveEach {} ts).serve t).2 = serveEach {} ts) ∧
    (((accepted {} ts).map (·.name)).Nodup →
      (∀ u ∈ accepted {} ts, ∃ t, (serveEach {} ts).find? u.name = some t) ∧
      ∀ name t, (serveEach {} ts).find? name = some t → ∃ u ∈ accepted {} ts,
        Stands (· ∈ accepted {} ts) (serveEach {} ts) u t) := by
  refine ⟨fun name t ht => ?_, fun t e he => ?_, fun hnames => ?_⟩
  · obtain ⟨hname, hsound⟩ := (Built.empty.serveEach ts).sound ht
    exact ⟨hname, hsound.ruled⟩
  · rw [serve_eq] at he ⊢
    cases hr : (serveEach {} ts).register t with
    | error e' => rfl
    | ok x =>
      rw [hr] at he
      cases he
  · have hd : Distinct (· ∈ accepted {} ts) := fun u v hu hv =>
      List.inj_on_of_nodup_map hnames hu hv
    have hend := (Partway.start (accepted {} ts)).serveEach
    refine ⟨fun u hu => ?_, fun name t ht => ?_⟩
    · obtain ⟨t, ht, -⟩ := hend.completed hd hu
      exact ⟨t, ht⟩
    · obtain ⟨-, u, hu, -, hc⟩ := hend.held name t ht
      exact ⟨u, hu, hend.stands hd hc⟩

/-- Calls of which two fail: the first, as there is no such parent yet, and the third, as a type
has one id. The fourth takes the id away from the property that it inherits. -/
def office : List EntityType :=
  let text (name : String) : Property := { name, shape := .single (.scalar .text) }
  let id (name : String) : Property := { text name with isId := true }
  [⟨"Clerk", none, some "Staff", []⟩,
    ⟨"Person", some "people", none, [id "passport", text "name"]⟩,
    ⟨"Staff", none, some "Person", [id "badge"]⟩,
    ⟨"Staff", none, some "Person", [id "badge", text "passport"]⟩,
    ⟨"Clerk", none, some "Staff", [text "desk"]⟩]

theorem lawful_office :
    ((accepted {} office).map (·.name)).Nodup ∧
    ∃ t, (serveEach {} office).find? "Clerk" = some t ∧ t.Ruled ∧ t.keyspace = "people" ∧
      namesOf t.properties = ["passport", "name", "badge", "desk"] ∧
      ∃ u ∈ accepted {} office, Stands (· ∈ accepted {} office) (serveEach {} office) u t := by
  have hnames : ((accepted {} office).map (·.name)).Nodup := by decide +kernel
  obtain ⟨hruled, -, hstands⟩ := lawful_serveEach office
  have hfind : ((serveEach {} office).find? "Clerk").map
      (fun t => (t.keyspace, namesOf t.properties)) =
        some ("people", ["passport", "name", "badge", "desk"]) := by decide +kernel
  obtain ⟨t, ht, heq⟩ := Option.map_eq_some_iff.1 hfind
  obtain ⟨hkeyspace, hproperties⟩ := Prod.mk.inj heq
  exact ⟨hnames, t, ht, (hruled _ t ht).2, hkeyspace, hproperties, (hstands hnames).2 _ t ht⟩

end Registry

end FlatGraph
