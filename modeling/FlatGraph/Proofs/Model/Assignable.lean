import FlatGraph.Proofs.Model.History
import Mathlib.Logic.Relation
import Mathlib.Data.List.Perm.Subperm
import Mathlib.Data.Nat.Find
import Mathlib.Order.WellFounded

/-!
# Assignability

**Theorem (`isAssignable_serveEach`).** Whatever is registered, objects of one type can stand where
another one is declared exactly if links from registered types to their parents lead from the one
to the other. So each registered type can stand for itself, and assignability is transitive. If no
name was registered twice, no two types can stand for each other.

`isAssignable` gives up after more steps than there are types. Nothing is missed: the shortest chain
of links comes to each of its types once (`exists_ancestor?_lt`). With names that are registered
again, links can lead in a circle (`circle`). Without, each type was registered after its
parent, so that links come to an end (`wellFounded_extends`).
-/

namespace FlatGraph.Registry

open EntityType (Completes Distinct)

variable {r r' : Registry} {a b c sub sup : String} {n : Nat}

/-! ## Links -/

/-- The parent of a registered type. -/
def parent? (r : Registry) (name : String) : Option String := (r.find? name).bind (·.parent)

/-- The link from a registered type to its parent. -/
def Extends (r : Registry) (a b : String) : Prop := r.parent? a = some b

instance : Decidable (r.Extends a b) := inferInstanceAs (Decidable (_ = _))

theorem extends_iff : r.Extends a b ↔ ∃ t, r.find? a = some t ∧ t.parent = some b :=
  Option.bind_eq_some_iff

theorem register_spec {t t' : EntityType} (h : r.register t = .ok (t', r')) :
    t'.parent = t.parent ∧ (∀ parent, t.parent = some parent → r.contains parent = true) ∧
      ∀ name, r'.find? name = if name = t'.name then some t' else r.find? name := by
  obtain ⟨hinherit, -, rfl⟩ := register_eq_ok_iff.1 h
  refine ⟨?_, fun parent hparent => ?_, Sorted.lookup_put _ _ _⟩
  · unfold inherit at hinherit
    split at hinherit
    · cases hinherit
      rfl
    · split at hinherit <;> cases hinherit
      rfl
  · have hready : r.IsReady t := by
      by_contra hstuck
      obtain ⟨e, he⟩ := inherit_of_not_isReady hstuck
      cases he.symm.trans hinherit
    rwa [IsReady, hparent, Option.all_some] at hready

/-- What is registered stays registered. -/
theorem contains_register {t t' : EntityType} (h : r.register t = .ok (t', r'))
    (ha : r.contains a = true) : r'.contains a = true := by
  obtain ⟨-, -, hfind⟩ := register_spec h
  rw [contains, hfind]
  split
  · rfl
  · exact ha

/-- Parents are registered. -/
theorem Built.contains_of_extends (hb : r.Built) (h : r.Extends a b) : r.contains b = true := by
  induction hb with
  | empty => cases h
  | register _ hr ih =>
    obtain ⟨hparent, hready, hfind⟩ := register_spec hr
    obtain ⟨t, ht, htb⟩ := extends_iff.1 h
    apply contains_register hr
    rw [hfind] at ht
    split at ht
    · cases ht
      exact hready b (hparent ▸ htb)
    · exact ih (extends_iff.2 ⟨t, ht, htb⟩)

/-! ## Chains -/

/-- The name to which a number of links leads. -/
def ancestor? (r : Registry) : Nat → String → Option String
  | 0, name => some name
  | n + 1, name => (r.parent? name).bind (r.ancestor? n)

theorem ancestor?_add (m n : Nat) (name : String) :
    r.ancestor? (m + n) name = (r.ancestor? m name).bind (r.ancestor? n) := by
  induction m generalizing name with
  | zero => rw [Nat.zero_add, ancestor?, Option.bind_some]
  | succ m ih =>
    rw [Nat.succ_add, ancestor?, ancestor?, Option.bind_assoc]
    exact congrArg _ (funext ih)

theorem reflTransGen_extends_iff :
    Relation.ReflTransGen r.Extends a b ↔ ∃ n, r.ancestor? n a = some b := by
  constructor
  · intro h
    induction h using Relation.ReflTransGen.head_induction_on with
    | refl => exact ⟨0, rfl⟩
    | head hlink _ ih =>
      obtain ⟨n, hn⟩ := ih
      exact ⟨n + 1, by rw [ancestor?, hlink, Option.bind_some, hn]⟩
  · rintro ⟨n, hn⟩
    induction n generalizing a with
    | zero =>
      cases hn
      exact .refl
    | succ n ih =>
      obtain ⟨parent, hlink, hrest⟩ := Option.bind_eq_some_iff.1 hn
      exact .head hlink (ih hrest)

theorem Built.contains_of_ancestor? (hb : r.Built) (ha : r.contains a = true)
    (h : r.ancestor? n a = some b) : r.contains b = true := by
  induction n generalizing a with
  | zero =>
    cases h
    exact ha
  | succ n ih =>
    obtain ⟨parent, hlink, hrest⟩ := Option.bind_eq_some_iff.1 h
    exact ih (hb.contains_of_extends hlink) hrest

/-- **A chain of links can be cut short**, to fewer than there are types: the shortest one comes to
no type twice. -/
theorem Built.exists_ancestor?_lt (hb : r.Built) (ha : r.contains a = true)
    (h : ∃ n, r.ancestor? n a = some b) : ∃ n < r.size, r.ancestor? n a = some b := by
  classical
  let n := Nat.find h
  have hn : r.ancestor? n a = some b := Nat.find_spec h
  refine ⟨n, ?_, hn⟩
  let chain := (List.range (n + 1)).map fun i => r.ancestor? i a
  have hnodup : chain.Nodup := by
    refine List.Nodup.map_on (fun i hi j hj hij => ?_) List.nodup_range
    by_contra hne
    -- what comes between two places of one name can be left out
    have hcut : ∀ i j, i < j → j ≤ n → r.ancestor? i a ≠ r.ancestor? j a := by
      intro i j hlt hle heq
      have hshort : r.ancestor? (i + (n - j)) a = some b := by
        rw [ancestor?_add, heq, ← ancestor?_add, Nat.add_sub_cancel' hle, hn]
      exact Nat.find_min h (m := i + (n - j)) (by omega) hshort
    rw [List.mem_range] at hi hj
    rcases Nat.lt_or_gt_of_ne hne with hlt | hlt
    · exact hcut i j hlt (by omega) hij
    · exact hcut j i hlt (by omega) hij.symm
  have hsub : chain ⊆ r.names.map some := by
    intro x hx
    obtain ⟨i, hi, rfl⟩ := List.mem_map.1 hx
    rw [List.mem_range] at hi
    have hsplit : r.ancestor? (i + (n - i)) a = some b := by
      rw [Nat.add_sub_cancel' (by omega), hn]
    rw [ancestor?_add] at hsplit
    obtain ⟨name, hname, -⟩ := Option.bind_eq_some_iff.1 hsplit
    obtain ⟨t, ht⟩ := Option.isSome_iff_exists.1 (hb.contains_of_ancestor? ha hname)
    rw [hname]
    exact List.mem_map_of_mem (List.mem_map.2 ⟨(name, t), hb.mem_types_iff.2 ht, rfl⟩)
  have hlength := (List.subperm_of_subset hnodup hsub).length_le
  exact Nat.lt_of_succ_le (by simpa [chain, names, size] using hlength)

/-! ## Assignability -/

/-- One step of the search: the type itself, or what its parent reaches. -/
theorem Built.reaches_succ_iff (hb : r.Built) (hsub : r.contains sub = true) :
    r.reaches sup (n + 1) sub = true ↔
      sub = sup ∨ ∃ parent, r.Extends sub parent ∧ r.reaches sup n parent = true := by
  obtain ⟨t, ht⟩ := Option.isSome_iff_exists.1 hsub
  have hparent : r.parent? sub = t.parent := by rw [parent?, ht, Option.bind_some]
  simp only [reaches, ht, (hb.sound ht).1, Extends, hparent, Bool.or_eq_true, beq_iff_eq]
  cases t.parent <;> simp

theorem Built.reaches_iff (hb : r.Built) (hsub : r.contains sub = true) :
    r.reaches sup n sub = true ↔ ∃ m < n, r.ancestor? m sub = some sup := by
  induction n generalizing sub with
  | zero => simp [reaches]
  | succ n ih =>
    rw [hb.reaches_succ_iff hsub]
    constructor
    · rintro (rfl | ⟨parent, hlink, h⟩)
      · exact ⟨0, Nat.succ_pos n, rfl⟩
      · obtain ⟨m, hm, h⟩ := (ih (hb.contains_of_extends hlink)).1 h
        exact ⟨m + 1, Nat.succ_lt_succ hm, Option.bind_eq_some_iff.2 ⟨parent, hlink, h⟩⟩
    · rintro ⟨_ | m, hm, h⟩
      · exact .inl (Option.some.inj h)
      · obtain ⟨parent, hlink, h⟩ := Option.bind_eq_some_iff.1 h
        have hrest := (ih (hb.contains_of_extends hlink)).2 ⟨m, Nat.lt_of_succ_lt_succ hm, h⟩
        exact .inr ⟨parent, hlink, hrest⟩

/-- **Assignability is reachability along links to parents.** -/
theorem Built.isAssignable_iff (hb : r.Built) :
    r.isAssignable sub sup = true ↔
      r.contains sub = true ∧ Relation.ReflTransGen r.Extends sub sup := by
  by_cases hsub : r.contains sub = true
  · rw [and_iff_right hsub, reflTransGen_extends_iff, isAssignable, hb.reaches_iff hsub]
    constructor
    · rintro ⟨n, -, h⟩
      exact ⟨n, h⟩
    · intro h
      obtain ⟨n, hn, h⟩ := hb.exists_ancestor?_lt hsub h
      exact ⟨n, Nat.lt_succ_of_lt hn, h⟩
  · have hnone : r.find? sub = none := by simpa [contains] using hsub
    simp [isAssignable, reaches, hnone, hsub]

/-- Where all types are complete, links come to an end. -/
theorem Partway.wellFounded_extends {declared : EntityType → Prop} (h : Partway declared r [])
    (hd : Distinct declared) : WellFounded (Function.swap r.Extends) := by
  have hcomplete : ∀ u t, Completes declared u t → r.find? u.name = some t →
      Acc (Function.swap r.Extends) u.name := by
    intro u t hc
    induction hc with
    | @root u hroot =>
      refine fun ht => ⟨_, fun b hlink => ?_⟩
      obtain ⟨t, ht', hb⟩ := extends_iff.1 hlink
      cases ht.symm.trans ht'
      cases hroot.symm.trans hb
    | @child u p q hp hchild hq ih =>
      refine fun ht => ⟨_, fun b hlink => ?_⟩
      obtain ⟨t, ht', hb⟩ := extends_iff.1 hlink
      cases ht.symm.trans ht'
      cases hchild.symm.trans hb
      obtain ⟨q', hq', hc', -⟩ := h.completed hd hp
      cases hc'.unique hd hq
      exact ih hq'
  refine ⟨fun name => ?_⟩
  cases ht : r.find? name with
  | none =>
    refine ⟨_, fun b hlink => ?_⟩
    obtain ⟨t, ht', -⟩ := extends_iff.1 hlink
    cases ht.symm.trans ht'
  | some t =>
    obtain ⟨-, u, -, rfl, hc⟩ := h.held name t ht
    exact hcomplete u t hc ht

/-- **Whatever is registered, assignability is reachability along the links from registered types
to their parents.** So each registered type can stand for itself, and assignability is transitive.
If no name was registered twice, it is antisymmetric. -/
theorem isAssignable_serveEach (ts : List EntityType) :
    let r := serveEach {} ts
    (∀ sub sup, r.isAssignable sub sup = true ↔
      r.contains sub = true ∧ Relation.ReflTransGen r.Extends sub sup) ∧
    (∀ a, r.contains a = true → r.isAssignable a a = true) ∧
    (∀ a b c, r.isAssignable a b = true → r.isAssignable b c = true →
      r.isAssignable a c = true) ∧
    (((accepted {} ts).map (·.name)).Nodup → ∀ a b, r.isAssignable a b = true →
      r.isAssignable b a = true → a = b) := by
  intro r
  have hiff : ∀ sub sup, r.isAssignable sub sup = true ↔
      r.contains sub = true ∧ Relation.ReflTransGen r.Extends sub sup :=
    fun _ _ => (Built.empty.serveEach ts).isAssignable_iff
  refine ⟨hiff, fun a ha => (hiff a a).2 ⟨ha, .refl⟩, fun a b c hab hbc => ?_,
    fun hnames a b hab hba => ?_⟩
  · obtain ⟨ha, hab⟩ := (hiff a b).1 hab
    exact (hiff a c).2 ⟨ha, hab.trans ((hiff b c).1 hbc).2⟩
  · have hd : Distinct (· ∈ accepted {} ts) := fun u v hu hv =>
      List.inj_on_of_nodup_map hnames hu hv
    have hwf := ((Partway.start (accepted {} ts)).serveEach.wellFounded_extends hd).transGen
    by_contra hne
    have hcircle : Relation.TransGen r.Extends a a := by
      rcases Relation.reflTransGen_iff_eq_or_transGen.1 ((hiff a b).1 hab).2 with heq | hab'
      · exact absurd heq.symm hne
      · exact hab'.trans_left ((hiff b a).1 hba).2
    exact hwf.irrefl.irrefl a (Relation.transGen_swap.2 hcircle)

/-- Calls of which the last one registers the topmost type again, below the other one. -/
def circle : List EntityType :=
  [⟨"Animal", none, none, []⟩, ⟨"Dog", none, some "Animal", []⟩, ⟨"Animal", none, some "Dog", []⟩]

/-- Links that lead in a circle lead to each of its types. In the office, where no name was
registered twice, they lead upwards only. -/
theorem isAssignable_circle :
    (serveEach {} circle).isAssignable "Animal" "Dog" = true ∧
    (serveEach {} circle).isAssignable "Dog" "Animal" = true ∧
    ((accepted {} office).map (·.name)).Nodup ∧
    (serveEach {} office).isAssignable "Clerk" "Person" = true ∧
    (serveEach {} office).isAssignable "Person" "Clerk" = false := by
  obtain ⟨hcircle, -, -, -⟩ := isAssignable_serveEach circle
  obtain ⟨hoffice, -, -, hantisymm⟩ := isAssignable_serveEach office
  have hnames : ((accepted {} office).map (·.name)).Nodup := by decide +kernel
  have hup : (serveEach {} office).isAssignable "Clerk" "Person" = true :=
    (hoffice _ _).2 ⟨by decide +kernel, .head (b := "Staff") (by decide +kernel)
      (.single (by decide +kernel))⟩
  refine ⟨(hcircle _ _).2 ⟨by decide +kernel, .single (by decide +kernel)⟩,
    (hcircle _ _).2 ⟨by decide +kernel, .single (by decide +kernel)⟩, hnames, hup, ?_⟩
  rw [← Bool.not_eq_true]
  intro hdown
  exact absurd (hantisymm hnames _ _ hup hdown) (by decide)

end FlatGraph.Registry
