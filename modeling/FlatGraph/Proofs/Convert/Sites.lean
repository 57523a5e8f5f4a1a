import FlatGraph.Proofs.Convert.Links
import Mathlib.Data.List.Nodup

/-!
# Where the values in an object stand

A value in an object has an address there: the fields, the indexes of list items and the positions
of map entries that lead to it (`Value.at?`). When the object is written, the value also has a path,
and something is declared for it (`Site`). `Site.Part` is one step from a site to one inside it,
`Site.Leads` any number of them; they say nothing of what is written.

* `Site.leads_append_iff`: a site is come by through the sites on the way.
* `Site.Leads.includes`: a walk over a site includes one over each site in it.
* `Site.Part.eq_or_apart`: of the sites in one site, each has a step of its own and a region of the
  record of its own, if the keys of maps differ (`Site.KeysDiffer`).
-/

namespace FlatGraph

open FlatGraph.Path (Below Within)

/-! ## Addresses -/

/-- A step of an address. -/
inductive Hop where
  | field (name : String)
  | item (index : Nat)
  | entry (position : Nat)
deriving DecidableEq, Repr

namespace Value

/-- The value to which a step leads. -/
def follow? : Value → Hop → Option Value
  | .object _ fields, .field name => fields.lookup name
  | .list items, .item i => items[i]?
  | .map entries, .entry i => entries[i]?.map Prod.snd
  | _, _ => none

/-- The value at an address. -/
def at? (v : Value) (address : List Hop) : Option Value := address.foldlM follow? v

theorem at?_append (v : Value) (a b : List Hop) :
    v.at? (a ++ b) = (v.at? a).bind (·.at? b) := List.foldlM_append

end Value

/-! ## Sites -/

/-- What is declared where a value stands. -/
inductive Slot where
  | property (p : Property)
  | element (type : TypeRef) (reference : Bool)

/-- A value, where it stands in an object. -/
structure Site where
  slot : Slot
  path : String
  value : Value

/-- An object as a root. -/
def Object.site (o : Object) : Site := ⟨.element (.entity o.type) false, "", o.toValue⟩

namespace Site

variable {r : Registry}

/-- One step from a site to one inside it. The one value of a property stands where the property
does; an id and an object that is only referred to have nothing inside. -/
inductive Part (r : Registry) : Site → List Hop → Site → Prop
  | field {path declared type : String} {fields : List (String × Value)} {t : EntityType}
      {p : Property} {v : Value} (ht : r.find? type = some t) (hp : p ∈ t.properties)
      (hv : Fields.get? fields p.name = some v) :
      Part r ⟨.element (.entity declared) false, path, .object type fields⟩ [.field p.name]
        ⟨.property p, Path.join path p.name, v⟩
  | single {path : String} {p : Property} {type : TypeRef} {v : Value} (hid : p.isId = false)
      (hs : p.shape = .single type) :
      Part r ⟨.property p, path, v⟩ [] ⟨.element type p.isReference, path, v⟩
  | item {path : String} {p : Property} {type : TypeRef} {items : List Value} {i : Nat} {v : Value}
      (hid : p.isId = false) (hs : p.shape = .list type) (hi : items[i]? = some v) :
      Part r ⟨.property p, path, .list items⟩ [.item i]
        ⟨.element type p.isReference, Path.element path (indexText i), v⟩
  | entry {path text : String} {p : Property} {key : ScalarType} {type : TypeRef}
      {entries : List (Value × Value)} {i : Nat} {e : Value × Value} (hid : p.isId = false)
      (hs : p.shape = .map key type) (hi : entries[i]? = some e)
      (ht : key.keyText e.1 = .ok text) :
      Part r ⟨.property p, path, .map entries⟩ [.entry i]
        ⟨.element type p.isReference, Path.element path text, e.2⟩

/-- The way from a site to one inside it, at any depth, along an address. -/
inductive Leads (r : Registry) : Site → List Hop → Site → Prop
  | here (s : Site) : Leads r s [] s
  | step {s s' s'' : Site} {hops address : List Hop} (hp : Part r s hops s')
      (h : Leads r s' address s'') : Leads r s (hops ++ address) s''

variable {s s' s'' : Site} {hops : List Hop} {a b : List Hop}

theorem Part.hops_eq (h : Part r s hops s') : hops = [] ∨ ∃ hop, hops = [hop] := by
  cases h <;> simp

theorem Part.at?_eq (h : Part r s hops s') : s.value.at? hops = some s'.value := by
  have hone : ∀ (v : Value) (hop : Hop), v.at? [hop] = v.follow? hop := fun v hop => by
    simp [Value.at?]
  cases h with
  | field ht hp hv =>
    rw [hone]
    exact (Option.filter_eq_some_iff.1 hv).1
  | single => rfl
  | item hid hs hi =>
    rw [hone]
    exact hi
  | entry hid hs hi =>
    rw [hone, Value.follow?, hi]
    rfl

/-- **The address of a value is the way to it.** -/
theorem Leads.at?_eq (h : Leads r s a s') : s.value.at? a = some s'.value := by
  induction h with
  | here s => rfl
  | step hp _ ih => rw [Value.at?_append, hp.at?_eq, Option.bind_some, ih]

/-- A way along an address goes through a site at each part of the address. -/
theorem leads_append_iff :
    Leads r s (a ++ b) s'' ↔ ∃ s', Leads r s a s' ∧ Leads r s' b s'' := by
  constructor
  · intro h
    generalize hab : a ++ b = address at h
    induction h generalizing a with
    | here s =>
      obtain ⟨rfl, rfl⟩ := List.append_eq_nil_iff.1 hab
      exact ⟨s, .here s, .here s⟩
    | @step s s₁ s₂ hops rest hp h ih =>
      obtain rfl | ⟨hop, rfl⟩ := hp.hops_eq
      · obtain ⟨s', ha, hb⟩ := ih hab
        exact ⟨s', .step hp ha, hb⟩
      cases a with
      | nil => exact ⟨s, .here s, (show b = [hop] ++ rest from hab) ▸ .step hp h⟩
      | cons hop' a =>
        obtain ⟨rfl, hrest⟩ := List.cons.inj hab
        obtain ⟨s', ha, hb⟩ := ih hrest
        exact ⟨s', .step hp ha, hb⟩
  · rintro ⟨s', ha, hb⟩
    induction ha with
    | here s => exact hb
    | step hp _ ih =>
      rw [List.append_assoc]
      exact .step hp (ih hb)

/-- A way into an object goes through one of its properties. -/
theorem exists_property_of_leads {type name : String} {fields : List (String × Value)}
    {t : EntityType} (h : Leads r s (.field name :: a) s') (hv : s.value = .object type fields)
    (ht : r.find? type = some t) : ∃ p ∈ t.properties, p.name = name := by
  generalize ha : Hop.field name :: a = address at h
  induction h with
  | here => cases ha
  | step hp _ ih =>
    cases hp with
    | field ht' hp =>
      cases hv
      cases ht.symm.trans ht'
      cases ha
      exact ⟨_, hp, rfl⟩
    | single => exact ih hv ha
    | item | entry => cases ha

/-! ## Walks -/

/-- The walk over a site. -/
def walk (r : Registry) (s : Site) : Walk Unit :=
  match s.slot with
  | .property p => Write.property r false s.path p s.value
  | .element type reference => Write.element r s.path type reference s.value

variable {xs : List (String × Bytes)} {x : String × Bytes}

theorem Part.includes (h : Part r s hops s') : Traced.Includes (s.walk r) (s'.walk r) := by
  cases h with
  | field ht hp hv => exact (Write.element_includes ht).trans (Write.properties_includes hp hv)
  | single hid hs => exact Write.property_includes hid hs
  | @item path p type items i v hid hs hi =>
    have helements : Traced.Includes (Write.elements r path type p.isReference 0 items)
        (Write.element r (Path.element path (indexText (0 + i))) type p.isReference v) :=
      Write.elements_includes hi
    rw [Nat.zero_add] at helements
    show Traced.Includes (Write.property r false path p (.list items)) _
    rw [Write.property, if_neg (by simp [hid]), hs]
    exact helements
  | @entry path text p key type entries i e hid hs hi ht =>
    obtain ⟨bs, hb, rfl⟩ := Outcome.map_eq_ok_iff.1 ht
    show Traced.Includes (Write.property r false path p (.map entries)) _
    rw [Write.property, if_neg (by simp [hid]), hs]
    exact Write.mapEntries_includes (List.mem_of_getElem? hi) hb

/-- **A walk over a site includes one over each site in it.** -/
theorem Leads.includes (h : Leads r s a s') : Traced.Includes (s.walk r) (s'.walk r) := by
  induction h with
  | here s => exact .refl _
  | step hp _ ih => exact hp.includes.trans ih

theorem Leads.leaves (h : Leads r s a s') (hl : Write.Leaves (s.walk r) xs) :
    ∃ ys, Write.Leaves (s'.walk r) ys ∧ ys ⊆ xs := hl.of_includes h.includes

/-! ## Regions -/

/-- Whether a key of the record belongs to a site. -/
def Region (s : Site) (key : String) : Prop :=
  match s.slot with
  | .property _ => Within s.path key
  | .element type reference => covers type reference s.path key = true

theorem Region.within {key : String} (h : s.Region key) : Within s.path key := by
  obtain ⟨_ | _, path, value⟩ := s
  · exact h
  · exact within_of_covers h

theorem Part.path_ne_empty (hn : r.Named) (h : Part r s hops s')
    (hs : hops = [] → s.path ≠ "") : s'.path ≠ "" := by
  cases h with
  | field ht hp => exact Path.join_ne_empty (hn.isName _ _ ht _ hp).ne_empty
  | single => exact hs rfl
  | item | entry => exact Path.element_ne_empty _ _

theorem Leads.path_ne_empty (hn : r.Named) (h : Leads r s a s') (hs : s.path ≠ "") :
    s'.path ≠ "" := by
  induction h with
  | here => exact hs
  | step hp _ ih => exact ih (hp.path_ne_empty hn fun _ => hs)

theorem Part.region (h : Part r s hops s') (hs : s.path ≠ "") {key : String}
    (hk : s'.Region key) : s.Region key := by
  have hw := hk.within
  cases h with
  | field =>
    exact (covers_nested_iff rfl).2 ((Path.below_join hs _).trans_within hw).within
  | single => exact hw
  | item | entry => exact ((Path.below_element _ _).trans_within hw).within

/-- The region of a site in another one lies in the region of that one. -/
theorem Leads.region (hn : r.Named) (h : Leads r s a s') (hs : s.path ≠ "") {key : String}
    (hk : s'.Region key) : s.Region key := by
  induction h with
  | here => exact hk
  | step hp _ ih => exact hp.region hs (ih (hp.path_ne_empty hn fun _ => hs) hk)

/-! ## Sizes -/

/-- The size of a site. The one value of a property is smaller than the property. -/
noncomputable def size (s : Site) : Nat :=
  match s.slot with
  | .property _ => 2 * sizeOf s.value + 1
  | .element .. => 2 * sizeOf s.value

theorem Part.size_lt (h : Part r s hops s') : s'.size < s.size := by
  cases h with
  | field _ _ hv =>
    have := Write.sizeOf_lt_of_get? hv
    simp only [size, Value.object.sizeOf_spec]
    omega
  | single => exact Nat.lt_succ_self _
  | item _ _ hi =>
    have := Value.sizeOf_lt_of_mem_items (List.mem_of_getElem? hi)
    simp only [size]
    omega
  | entry _ _ hi =>
    have := Value.sizeOf_lt_of_mem_entries (List.mem_of_getElem? hi)
    simp only [size]
    omega

end Site

/-! ## Sites apart from each other -/

namespace Site

variable {r : Registry} {s s₁ s₂ : Site} {hops₁ hops₂ : List Hop}

/-- The keys of each map in a site are told apart. -/
def KeysDiffer (r : Registry) (s : Site) : Prop :=
  ∀ address path p key type entries, s.Leads r address ⟨.property p, path, .map entries⟩ →
    p.shape = .map key type → key.TellsApart (Read.isLeaf type p.isReference) (entries.map Prod.fst)

theorem KeysDiffer.of_part {hops : List Hop} {s' : Site} (h : s.KeysDiffer r)
    (hp : Part r s hops s') : s'.KeysDiffer r :=
  fun _ _ p key type entries hl => h _ _ p key type entries (.step hp hl)

/-- **Of the sites in one site, each has a step and a region of its own.** -/
theorem Part.eq_or_apart (hn : r.Named) (hk : s.KeysDiffer r) (h₁ : Part r s hops₁ s₁)
    (h₂ : Part r s hops₂ s₂) :
    hops₁ = hops₂ ∧ s₁ = s₂ ∨
      ∃ hop₁ hop₂, hops₁ = [hop₁] ∧ hops₂ = [hop₂] ∧ hop₁ ≠ hop₂ ∧
        ∀ key, s₁.Region key → ¬ s₂.Region key := by
  cases h₁ with
  | @field path declared type fields t p v ht hp hv =>
    cases h₂ with
    | @field _ _ _ _ t' q w ht' hq hw =>
    cases ht.symm.trans ht'
    by_cases hname : p.name = q.name
    · cases List.inj_on_of_nodup_map (hn.distinct _ _ ht) hp hq hname
      cases hv.symm.trans hw
      exact .inl ⟨rfl, rfl⟩
    · refine .inr ⟨_, _, rfl, rfl, by simpa using hname, fun key hk₁ hk₂ => hname ?_⟩
      exact Path.join_inj_of_within (hn.isName _ _ ht p hp).no_dot (hn.isName _ _ ht q hq).no_dot
        hk₁ hk₂
  | single hid hs =>
    cases h₂ with
    | single hid' hs' =>
      cases hs.symm.trans hs'
      exact .inl ⟨rfl, rfl⟩
    | item _ hs' | entry _ hs' => cases hs.symm.trans hs'
  | @item path p type items i v hid hs hi =>
    cases h₂ with
    | single _ hs' => cases hs.symm.trans hs'
    | @item _ _ _ _ j w _ hs' hj =>
    cases hs.symm.trans hs'
    by_cases hij : i = j
    · subst hij
      cases hi.symm.trans hj
      exact .inl ⟨rfl, rfl⟩
    · refine .inr ⟨_, _, rfl, rfl, by simpa using hij, fun key hk₁ hk₂ => hij ?_⟩
      exact indexText_injective (eq_of_covers_element (fun _ => no_bracket_indexText i)
        (fun _ => no_bracket_indexText j) hk₁ hk₂)
  | @entry path text p key type entries i e hid hs hi ht =>
    cases h₂ with
    | single _ hs' => cases hs.symm.trans hs'
    | @entry _ text' _ _ _ _ j e' _ hs' hj ht' =>
    cases hs.symm.trans hs'
    have htells := hk [] path p key type entries (.here _) hs
    by_cases hij : i = j
    · subst hij
      cases hi.symm.trans hj
      cases ht.symm.trans ht'
      exact .inl ⟨rfl, rfl⟩
    · refine .inr ⟨_, _, rfl, rfl, by simpa using hij, fun k hk₁ hk₂ => hij ?_⟩
      cases eq_of_covers_element (fun hl => htells.no_bracket_of_getElem? hl hi ht)
        (fun hl => htells.no_bracket_of_getElem? hl hj ht') hk₁ hk₂
      exact htells.index_eq hi hj ht ht'

end Site

end FlatGraph
