import FlatGraph.Proofs.Value
import Mathlib.Logic.Relation

/-!
# Equality of objects

Objects come about by setting fields and taking fields out (`Value.Built`). Their fields then have
names of their own, and so have those of the objects inside (`Value.built_object_iff`).

**Theorem (`Object.equal_extensional`).** Two objects are equal exactly if they have the same type
and `get?` finds equal values, or none, under each name. So equality does not notice in which order
fields stand or which of them hold an explicit null, at any depth (`Value.Respelled`). It is
symmetric and transitive, and each value is equal to itself, unless it has a number in it that is
none (`Value.HasNan`).

The comparison goes through the fields of one side only, and counts those of the other. It says
nothing of the names that the first side does not have: there cannot be any, since names that
differ are as many on both sides (`Value.equal_object_iff`).
-/

namespace FlatGraph

/-! ## Numbers -/

namespace Number.Floating

variable {f : Format}

theorem equal_signed_iff {s t : Bool} {m n : Fin (f.infinity + 1)} :
    (signed s m).equal (signed t n) = true ↔ m = n ∧ (s = t ∨ m.val = 0) := by
  simp [equal]

theorem equal_comm (x y : Floating f) : x.equal y = y.equal x := by
  cases x with
  | nan => cases y <;> rfl
  | signed s m =>
    cases y with
    | nan => rfl
    | signed t n =>
      rw [Bool.eq_iff_iff, equal_signed_iff, equal_signed_iff, @eq_comm _ n m, @eq_comm _ t s]
      exact and_congr_right fun h => by rw [h]

theorem equal_trans {x y z : Floating f} (h : x.equal y = true) (h' : y.equal z = true) :
    x.equal z = true := by
  cases x with
  | nan => cases h
  | signed s m =>
    cases y with
    | nan => cases h
    | signed t n =>
      cases z with
      | nan => cases h'
      | signed u k =>
        rw [equal_signed_iff] at h h' ⊢
        obtain ⟨rfl, hs⟩ := h
        obtain ⟨rfl, hu⟩ := h'
        refine ⟨rfl, ?_⟩
        rcases hs with rfl | hs
        · exact hu
        · exact .inr hs

theorem equal_self_iff {x : Floating f} : x.equal x = true ↔ x ≠ nan := by
  cases x with
  | nan => simp [equal]
  | signed s m => simp [equal]

end Number.Floating

/-! ## Fields -/

namespace Fields

variable {name : String} {value : Value} {fields : List (String × Value)}

theorem set_of_not_mem (h : name ∉ fields.map Prod.fst) :
    set name value fields = fields ++ [(name, value)] := by
  induction fields with
  | nil => rfl
  | cons f fields ih =>
    rw [List.map_cons, List.mem_cons, not_or] at h
    rw [set, if_neg (Ne.symm h.1), ih h.2, List.cons_append]

/-- A field that is there is set in its place, and the others stay as they are. -/
theorem set_of_mem (hd : (fields.map Prod.fst).Nodup) (h : name ∈ fields.map Prod.fst) :
    set name value fields = fields.map fun f => if f.1 = name then (name, value) else f := by
  induction fields with
  | nil => cases h
  | cons f fields ih =>
    rw [List.map_cons, List.nodup_cons] at hd
    rw [set, List.map_cons]
    split
    · next hf =>
      refine congrArg _ ((List.map_id _).symm.trans (List.map_congr_left fun g hg => ?_))
      rw [if_neg, id]
      rintro hname
      exact hd.1 (hf.trans hname.symm ▸ List.mem_map_of_mem hg)
    · next hf => rw [ih hd.2 ((List.mem_cons.1 h).resolve_left (Ne.symm hf))]

theorem nodup_eraseP (p : String × Value → Bool) (h : (fields.map Prod.fst).Nodup) :
    ((fields.eraseP p).map Prod.fst).Nodup := h.sublist (List.eraseP_sublist.map _)

/-- A field among others, with a name of its own. -/
theorem get?_middle {as bs : List (String × Value)} (h : name ∉ as.map Prod.fst) (k : String) :
    get? (as ++ (name, value) :: bs) k =
      if k = name then (if value.isNull then none else some value) else get? (as ++ bs) k := by
  induction as with
  | nil => exact get?_cons _ _ _ _
  | cons f as ih =>
    rw [List.map_cons, List.mem_cons, not_or] at h
    rw [List.cons_append, get?_cons, ih h.2, List.cons_append, get?_cons]
    by_cases hk : k = f.1
    · have hne : k ≠ name := fun hn => h.1 (hn.symm.trans hk)
      rw [if_pos hk, if_neg hne, if_pos hk]
    · rw [if_neg hk, if_neg hk]

theorem get?_of_not_mem (h : name ∉ fields.map Prod.fst) : get? fields name = none := by
  rw [get?, Lists.lookup_eq_none_iff.2 h]
  rfl

theorem get?_of_perm {as bs : List (String × Value)} (hd : (as.map Prod.fst).Nodup)
    (h : as.Perm bs) (k : String) : get? as k = get? bs k := by
  ext v
  rw [get?_eq_some_iff hd, get?_eq_some_iff ((h.map _).nodup_iff.1 hd), h.mem_iff]

end Fields

/-! ## What is found on two sides -/

section Found

variable {α : Type} {R S T : α → α → Prop} {x y z : Option α}

theorem rel_flip (h : Option.Rel R x y) (hi : ∀ a b, x = some a → y = some b → R a b → S b a) :
    Option.Rel S y x := by
  cases h with
  | none => exact .none
  | some h => exact .some (hi _ _ rfl rfl h)

theorem rel_trans (h : Option.Rel R x y) (h' : Option.Rel S y z)
    (hi : ∀ a b c, x = some a → y = some b → z = some c → R a b → S b c → T a c) :
    Option.Rel T x z := by
  cases h with
  | none =>
    cases h'
    exact .none
  | some h =>
    cases h' with
    | some h' => exact .some (hi _ _ _ rfl rfl rfl h h')

theorem rel_self_iff : Option.Rel R x x ↔ ∀ a, x = some a → R a a := by
  constructor
  · rintro h a rfl
    cases h with
    | some h => exact h
  · intro h
    cases x with
    | none => exact .none
    | some a => exact .some (h a rfl)

end Found

namespace Value

/-! ## Values that are built -/

/-- The value as it comes about: an object starts without fields, and each change sets a field or
takes one out. -/
inductive Built : Value → Prop
  | null : Built .null
  | scalar {v : Value} (h : v.isScalar = true) : Built v
  | list {items : List Value} (h : ∀ v ∈ items, Built v) : Built (.list items)
  | map {entries : List (Value × Value)} (hk : ∀ e ∈ entries, Built e.1)
      (hv : ∀ e ∈ entries, Built e.2) : Built (.map entries)
  | new (type : String) : Built (Object.toValue { type })
  | set {o : Object} (h : Built o.toValue) (name : String) {v : Value} (hv : Built v) :
      Built (o.set name v).toValue
  | erase {o : Object} (h : Built o.toValue) (name : String) : Built (o.erase name).toValue

theorem built_list_iff {items : List Value} :
    (list items).Built ↔ ∀ v ∈ items, v.Built := by
  constructor
  · intro h
    cases h with
    | scalar h => cases h
    | list h => exact h
  · exact .list

theorem built_map_iff {entries : List (Value × Value)} :
    (map entries).Built ↔ ∀ e ∈ entries, e.1.Built ∧ e.2.Built := by
  constructor
  · intro h
    cases h with
    | scalar h => cases h
    | map hk hv => exact fun e he => ⟨hk e he, hv e he⟩
  · exact fun h => .map (fun e he => (h e he).1) fun e he => (h e he).2

/-- **An object is built exactly if its fields have names of their own** and hold values that are
built. -/
theorem built_object_iff {type : String} {fields : List (String × Value)} :
    (object type fields).Built ↔ (fields.map Prod.fst).Nodup ∧ ∀ f ∈ fields, f.2.Built := by
  constructor
  · intro h
    generalize hv : object type fields = v at h
    induction h generalizing type fields with
    | null | list | map => cases hv
    | scalar h =>
      subst hv
      cases h
    | new =>
      cases hv
      exact ⟨List.nodup_nil, fun f hf => nomatch hf⟩
    | @set o _ name v hb ih =>
      cases hv
      obtain ⟨hd, hfields⟩ := ih rfl
      refine ⟨Fields.nodup_set name v hd, fun f hf => ?_⟩
      rcases Fields.mem_of_mem_set hf with rfl | hf
      · exact hb
      · exact hfields f hf
    | erase _ name ih =>
      cases hv
      obtain ⟨hd, hfields⟩ := ih rfl
      exact ⟨Fields.nodup_eraseP _ hd, fun f hf => hfields f (List.mem_of_mem_eraseP hf)⟩
  · rintro ⟨hd, hfields⟩
    induction fields using List.reverseRecOn with
    | nil => exact .new type
    | append_singleton fields f ih =>
      rw [List.map_append, List.map_singleton, List.nodup_append] at hd
      have hnew : f.1 ∉ fields.map Prod.fst := fun h =>
        hd.2.2 _ h _ (List.mem_singleton_self _) rfl
      have hbefore := ih hd.1 fun g hg => hfields g (List.mem_append_left _ hg)
      have hset := Built.set (o := ⟨type, fields⟩) hbefore f.1 (hfields f (by simp))
      rwa [Object.set, Object.toValue, Fields.set_of_not_mem hnew] at hset

theorem Built.of_get? {type name : String} {fields : List (String × Value)} {v : Value}
    (h : (object type fields).Built) (hv : Fields.get? fields name = some v) : v.Built := by
  obtain ⟨hd, hfields⟩ := built_object_iff.1 h
  exact hfields _ ((Fields.get?_eq_some_iff hd).1 hv).1

/-- What holds of leaves, and of a whole if it holds of what the whole is made of, holds of each
value that is built. -/
theorem Built.induction {motive : Value → Prop}
    (leaf : ∀ v, v.isNull = true ∨ v.isScalar = true → motive v)
    (list : ∀ items, (∀ v ∈ items, motive v) → motive (.list items))
    (map : ∀ entries, (∀ e ∈ entries, motive e.1 ∧ motive e.2) → motive (.map entries))
    (object : ∀ type fields, (fields.map Prod.fst).Nodup → (∀ f ∈ fields, motive f.2) →
      motive (.object type fields)) : ∀ v : Value, v.Built → motive v
  | .null, _ => leaf _ (.inl rfl)
  | .bool _, _ | .integer _, _ | .float _, _ | .text _, _ | .bytes _, _ | .enum _, _
  | .date _, _ => leaf _ (.inr rfl)
  | .list items, h => list items fun v hv =>
    Built.induction leaf list map object v (built_list_iff.1 h v hv)
  | .map entries, h => map entries fun e he =>
    ⟨Built.induction leaf list map object e.1 (built_map_iff.1 h e he).1,
      Built.induction leaf list map object e.2 (built_map_iff.1 h e he).2⟩
  | .object type fields, h => object type fields (built_object_iff.1 h).1 fun f hf =>
    Built.induction leaf list map object f.2 ((built_object_iff.1 h).2 f hf)
termination_by v => sizeOf v
decreasing_by
  · exact sizeOf_lt_of_mem_items hv
  · exact (Nat.le_add_right _ _).trans_lt (sizeOf_lt_of_mem_entries he)
  · exact (Nat.le_add_left _ _).trans_lt (sizeOf_lt_of_mem_entries he)
  · exact sizeOf_lt_of_mem_fields hf

/-! ## Equality, kind by kind -/

theorem equal_list_iff {items : List Value} {w : Value} :
    (list items).equal w = true ↔
      ∃ items', w = .list items' ∧ List.Forall₂ (fun a b => a.equal b = true) items items' := by
  cases w with
  | list items' => simp [Value.equal, equalItems_iff]
  | _ => simp [Value.equal]

theorem equal_map_iff {entries : List (Value × Value)} {w : Value} :
    (map entries).equal w = true ↔
      ∃ entries', w = .map entries' ∧
        List.Forall₂ (fun a b => a.1.equal b.1 = true ∧ a.2.equal b.2 = true) entries
          entries' := by
  cases w with
  | map entries' => simp [Value.equal, equalEntries_iff]
  | _ => simp [Value.equal]

/-- Where as many fields hold a value on both sides, a name that has one on the right has one on
the left, if those on the left have theirs on the right. -/
theorem named_subset {as bs : List (String × Value)} (ha : (as.map Prod.fst).Nodup)
    (hc : Fields.count as = Fields.count bs) (h : named as ⊆ named bs) : named bs ⊆ named as := by
  rw [count_eq_length_named, count_eq_length_named] at hc
  have hperm : (named as).Perm (named bs) :=
    (List.subperm_of_subset (nodup_named ha) h).perm_of_length_le hc.ge
  exact hperm.symm.subset

/-- **Objects are equal exactly if they have the same type and equal values, or none, under each
name.** -/
theorem equal_object_iff {type type' : String} {as bs : List (String × Value)}
    (ha : (as.map Prod.fst).Nodup) (hb : (bs.map Prod.fst).Nodup) :
    (object type as).equal (object type' bs) = true ↔
      type = type' ∧ ∀ name, Option.Rel (fun v w => v.equal w = true) (Fields.get? as name)
        (Fields.get? bs name) := by
  constructor
  · intro h
    rw [Value.equal, Bool.and_eq_true, Bool.and_eq_true, beq_iff_eq, beq_iff_eq,
      fieldsWithin_iff] at h
    obtain ⟨⟨htype, hcount⟩, hwithin⟩ := h
    have hfound : ∀ {name v}, Fields.get? as name = some v →
        ∃ w, Fields.get? bs name = some w ∧ v.equal w = true := fun hv => by
      obtain ⟨hmem, hnull⟩ := (Fields.get?_eq_some_iff ha).1 hv
      exact hwithin _ hmem hnull
    have hsub : named as ⊆ named bs := fun name hn => by
      obtain ⟨v, hv⟩ := (mem_named_iff ha).1 hn
      obtain ⟨w, hw, -⟩ := hfound hv
      exact (mem_named_iff hb).2 ⟨w, hw⟩
    refine ⟨htype, fun name => ?_⟩
    cases hv : Fields.get? as name with
    | some v =>
      obtain ⟨w, hw, hvw⟩ := hfound hv
      rw [hw]
      exact .some hvw
    | none =>
      cases hw : Fields.get? bs name with
      | none => exact .none
      | some w =>
        obtain ⟨v, hv'⟩ :=
          (mem_named_iff ha).1 (named_subset ha hcount hsub ((mem_named_iff hb).2 ⟨w, hw⟩))
        cases hv.symm.trans hv'
  · rintro ⟨rfl, h⟩
    exact equal_object ha hb h

theorem exists_of_equal_object {type : String} {fields : List (String × Value)} {w : Value}
    (h : (object type fields).equal w = true) : ∃ fields', w = .object type fields' := by
  cases w with
  | object type' fields' =>
    rw [Value.equal, Bool.and_eq_true, Bool.and_eq_true, beq_iff_eq] at h
    exact ⟨fields', by rw [h.1.1]⟩
  | _ => simp [Value.equal] at h

/-! ## An equivalence -/

theorem equal_comm_of_leaf {v : Value} (h : v.isNull = true ∨ v.isScalar = true) (w : Value) :
    v.equal w = w.equal v := by
  cases v with
  | list | map | object => simp [isNull, isScalar, kind, Kind.isScalar] at h
  | float x =>
    cases w with
    | float y => exact x.equal_comm y
    | _ => rfl
  | _ => cases w <;> first | rfl | exact BEq.comm

theorem equal_symm {v w : Value} (hv : v.Built) (hw : w.Built) (h : v.equal w = true) :
    w.equal v = true := by
  revert w
  refine Built.induction (motive := fun v => ∀ {w}, w.Built → v.equal w = true → w.equal v = true)
    ?leaf ?list ?map ?object v hv
  case leaf => exact fun v hv w _ h => equal_comm_of_leaf hv w ▸ h
  case list =>
    intro items ih w hw h
    obtain ⟨items', rfl, hall⟩ := equal_list_iff.1 h
    rw [built_list_iff] at hw
    refine equal_list_iff.2 ⟨items, rfl, List.Forall₂.flip ?_⟩
    exact Lists.forall₂_imp_mem hall fun a ha b hb hab => ih a ha (hw b hb) hab
  case map =>
    intro entries ih w hw h
    obtain ⟨entries', rfl, hall⟩ := equal_map_iff.1 h
    rw [built_map_iff] at hw
    refine equal_map_iff.2 ⟨entries, rfl, List.Forall₂.flip ?_⟩
    exact Lists.forall₂_imp_mem hall fun a ha b hb hab =>
      ⟨(ih a ha).1 (hw b hb).1 hab.1, (ih a ha).2 (hw b hb).2 hab.2⟩
  case object =>
    intro type fields hd ih w hw h
    obtain ⟨fields', rfl⟩ := exists_of_equal_object h
    have hd' := (built_object_iff.1 hw).1
    refine (equal_object_iff hd' hd).2 ⟨rfl, fun name => ?_⟩
    refine rel_flip (((equal_object_iff hd hd').1 h).2 name) fun a b ha hb hab => ?_
    exact ih _ ((Fields.get?_eq_some_iff hd).1 ha).1 (hw.of_get? hb) hab

/-- **Equality is symmetric.** -/
theorem equal_comm {v w : Value} (hv : v.Built) (hw : w.Built) : v.equal w = w.equal v :=
  Bool.eq_iff_iff.2 ⟨equal_symm hv hw, equal_symm hw hv⟩

theorem equal_trans_of_leaf {u v w : Value} (hu : u.isNull = true ∨ u.isScalar = true)
    (h : u.equal v = true) (h' : v.equal w = true) : u.equal w = true := by
  cases u with
  | list | map | object => simp [isNull, isScalar, kind, Kind.isScalar] at hu
  | float x =>
    cases v with
    | float y =>
      cases w with
      | float z => exact Number.Floating.equal_trans h h'
      | _ => simp [Value.equal] at h'
    | _ => simp [Value.equal] at h
  | _ =>
    cases v <;> simp only [Value.equal, beq_iff_eq, Bool.false_eq_true] at h
    all_goals first | exact h' | exact h ▸ h'

/-- **Equality is transitive.** -/
theorem equal_trans {u v w : Value} (hu : u.Built) (hv : v.Built) (hw : w.Built)
    (h : u.equal v = true) (h' : v.equal w = true) : u.equal w = true := by
  revert v w
  refine Built.induction (motive := fun u => ∀ {v w}, v.Built → w.Built → u.equal v = true →
    v.equal w = true → u.equal w = true) ?leaf ?list ?map ?object u hu
  case leaf => exact fun u hu v w _ _ h h' => equal_trans_of_leaf hu h h'
  case list =>
    intro items ih v w hv hw h h'
    obtain ⟨bs, rfl, hab⟩ := equal_list_iff.1 h
    obtain ⟨cs, rfl, hbc⟩ := equal_list_iff.1 h'
    rw [built_list_iff] at hv hw
    refine equal_list_iff.2 ⟨cs, rfl, Lists.forall₂_trans hab hbc ?_⟩
    exact fun a ha b hb c hc => ih a ha (hv b hb) (hw c hc)
  case map =>
    intro entries ih v w hv hw h h'
    obtain ⟨bs, rfl, hab⟩ := equal_map_iff.1 h
    obtain ⟨cs, rfl, hbc⟩ := equal_map_iff.1 h'
    rw [built_map_iff] at hv hw
    refine equal_map_iff.2 ⟨cs, rfl, Lists.forall₂_trans hab hbc ?_⟩
    exact fun a ha b hb c hc h h' => ⟨(ih a ha).1 (hv b hb).1 (hw c hc).1 h.1 h'.1,
      (ih a ha).2 (hv b hb).2 (hw c hc).2 h.2 h'.2⟩
  case object =>
    intro type fields hd ih v w hv hw h h'
    obtain ⟨bs, rfl⟩ := exists_of_equal_object h
    obtain ⟨cs, rfl⟩ := exists_of_equal_object h'
    have hbd := (built_object_iff.1 hv).1
    have hcd := (built_object_iff.1 hw).1
    refine (equal_object_iff hd hcd).2 ⟨rfl, fun name => ?_⟩
    refine rel_trans (((equal_object_iff hd hbd).1 h).2 name)
      (((equal_object_iff hbd hcd).1 h').2 name) fun a b c ha hb hc => ?_
    exact ih _ ((Fields.get?_eq_some_iff hd).1 ha).1 (hv.of_get? hb) (hw.of_get? hc)

/-! ## Numbers that are none -/

/-- Somewhere in the value there is a number that is none. -/
inductive HasNan : Value → Prop
  | number : HasNan (.float .nan)
  | item {items : List Value} {v : Value} (hm : v ∈ items) (h : HasNan v) : HasNan (.list items)
  | key {entries : List (Value × Value)} {e : Value × Value} (hm : e ∈ entries)
      (h : HasNan e.1) : HasNan (.map entries)
  | entry {entries : List (Value × Value)} {e : Value × Value} (hm : e ∈ entries)
      (h : HasNan e.2) : HasNan (.map entries)
  | field {type : String} {fields : List (String × Value)} {f : String × Value}
      (hm : f ∈ fields) (h : HasNan f.2) : HasNan (.object type fields)

theorem hasNan_list_iff {items : List Value} :
    (list items).HasNan ↔ ∃ v ∈ items, v.HasNan := by
  constructor
  · rintro (_ | ⟨hm, h⟩)
    exact ⟨_, hm, h⟩
  · rintro ⟨v, hm, h⟩
    exact .item hm h

theorem hasNan_map_iff {entries : List (Value × Value)} :
    (map entries).HasNan ↔ ∃ e ∈ entries, e.1.HasNan ∨ e.2.HasNan := by
  constructor
  · intro h
    cases h with
    | key hm h => exact ⟨_, hm, .inl h⟩
    | entry hm h => exact ⟨_, hm, .inr h⟩
  · rintro ⟨e, hm, h | h⟩
    · exact .key hm h
    · exact .entry hm h

theorem hasNan_object_iff {type : String} {fields : List (String × Value)} :
    (object type fields).HasNan ↔ ∃ f ∈ fields, f.2.HasNan := by
  constructor
  · intro h
    cases h with
    | field hm h => exact ⟨_, hm, h⟩
  · rintro ⟨f, hm, h⟩
    exact .field hm h

theorem hasNan_leaf_iff {v : Value} (h : v.isNull = true ∨ v.isScalar = true) :
    v.HasNan ↔ v = .float .nan := by
  constructor
  · intro hn
    cases hn with
    | number => rfl
    | item | key | entry | field => simp [isNull, isScalar, kind, Kind.isScalar] at h
  · rintro rfl
    exact .number

theorem equal_self_leaf_iff {v : Value} (h : v.isNull = true ∨ v.isScalar = true) :
    v.equal v = true ↔ v ≠ .float .nan := by
  cases v with
  | list | map | object => simp [isNull, isScalar, kind, Kind.isScalar] at h
  | float x => simp [Value.equal, Number.Floating.equal_self_iff]
  | _ => simp [Value.equal]

/-- **A value is equal to itself, unless it has a number in it that is none.** -/
theorem equal_self_iff {v : Value} (h : v.Built) : v.equal v = true ↔ ¬ v.HasNan := by
  refine Built.induction (motive := fun v => v.equal v = true ↔ ¬ v.HasNan)
    ?leaf ?list ?map ?object v h
  case leaf => exact fun v hv => by rw [equal_self_leaf_iff hv, hasNan_leaf_iff hv]
  case list =>
    intro items ih
    rw [Value.equal, equalItems_iff, List.forall₂_same, hasNan_list_iff]
    push Not
    exact forall₂_congr ih
  case map =>
    intro entries ih
    rw [Value.equal, equalEntries_iff, List.forall₂_same, hasNan_map_iff]
    push Not
    exact forall₂_congr fun e he => and_congr (ih e he).1 (ih e he).2
  case object =>
    intro type fields hd ih
    rw [equal_object_iff hd hd, hasNan_object_iff]
    push Not
    constructor
    · rintro ⟨-, h⟩ f hf hn
      have hnull : f.2.isNull = false := by
        cases hv : f.2 <;> first | rfl | (rw [hv] at hn; cases hn)
      have hself := rel_self_iff.1 (h f.1) _ ((Fields.get?_eq_some_iff hd).2 ⟨hf, hnull⟩)
      exact (ih f hf).1 hself hn
    · intro h
      refine ⟨rfl, fun name => rel_self_iff.2 fun v hv => ?_⟩
      have hmem := ((Fields.get?_eq_some_iff hd).1 hv).1
      exact (ih _ hmem).2 (h _ hmem)

/-! ## The same value written another way -/

/-- The second value is the first one with the fields of one object, at any depth, in another order
or with one more field that holds an explicit null. -/
inductive Respelled : Value → Value → Prop
  | order {type : String} {as bs : List (String × Value)} (h : as.Perm bs) :
      Respelled (.object type as) (.object type bs)
  | null {type name : String} {as bs : List (String × Value)}
      (h : name ∉ (as ++ bs).map Prod.fst) :
      Respelled (.object type (as ++ bs)) (.object type (as ++ (name, .null) :: bs))
  | field {type name : String} {as bs : List (String × Value)} {v w : Value}
      (h : Respelled v w) :
      Respelled (.object type (as ++ (name, v) :: bs)) (.object type (as ++ (name, w) :: bs))
  | item {as bs : List Value} {v w : Value} (h : Respelled v w) :
      Respelled (.list (as ++ v :: bs)) (.list (as ++ w :: bs))
  | key {as bs : List (Value × Value)} {k l v : Value} (h : Respelled k l) :
      Respelled (.map (as ++ (k, v) :: bs)) (.map (as ++ (l, v) :: bs))
  | entry {as bs : List (Value × Value)} {k v w : Value} (h : Respelled v w) :
      Respelled (.map (as ++ (k, v) :: bs)) (.map (as ++ (k, w) :: bs))

theorem Respelled.isNull_eq {v w : Value} (h : Respelled v w) :
    v.isNull = false ∧ w.isNull = false := by
  cases h <;> exact ⟨rfl, rfl⟩

theorem Respelled.built_iff {v w : Value} (h : Respelled v w) : v.Built ↔ w.Built := by
  induction h with
  | order h =>
    rw [built_object_iff, built_object_iff, (h.map _).nodup_iff]
    simp only [h.mem_iff]
  | @null type name as bs h =>
    have hperm : (as ++ (name, Value.null) :: bs).Perm ((name, .null) :: (as ++ bs)) :=
      List.perm_middle
    rw [built_object_iff, built_object_iff, (hperm.map _).nodup_iff, List.map_cons,
      List.nodup_cons]
    simp only [hperm.mem_iff, List.forall_mem_cons]
    exact ⟨fun hb => ⟨⟨h, hb.1⟩, .null, hb.2⟩, fun hb => ⟨hb.1.2, hb.2.2⟩⟩
  | field _ ih =>
    simp [built_object_iff, or_imp, forall_and, ih]
  | item _ ih =>
    simp [built_list_iff, or_imp, forall_and, ih]
  | key _ ih | entry _ ih =>
    simp [built_map_iff, or_imp, forall_and, ih]

/-- The values are equal to the same values. -/
def Alike (v v' : Value) : Prop := ∀ w : Value, w.Built → v.equal w = v'.equal w

theorem Alike.refl (v : Value) : Alike v v := fun _ _ => rfl

theorem alike_object {type : String} {as bs : List (String × Value)}
    (ha : (as.map Prod.fst).Nodup) (hb : (bs.map Prod.fst).Nodup)
    (h : ∀ name, Option.Rel Alike (Fields.get? as name) (Fields.get? bs name)) :
    Alike (.object type as) (.object type bs) := by
  intro w hw
  cases w with
  | object type' cs =>
    have hc := (built_object_iff.1 hw).1
    rw [Bool.eq_iff_iff, equal_object_iff ha hc, equal_object_iff hb hc]
    refine and_congr_right fun _ => forall_congr' fun name => ?_
    have hname := h name
    generalize Fields.get? as name = x, Fields.get? bs name = y at hname ⊢
    cases hname with
    | none => rfl
    | some hab =>
      cases hu : Fields.get? cs name with
      | none => simp
      | some u => simp [hab u (hw.of_get? hu)]
  | _ => rfl

theorem alike_object_of_get? {type : String} {as bs : List (String × Value)}
    (ha : (as.map Prod.fst).Nodup) (hb : (bs.map Prod.fst).Nodup)
    (h : ∀ name, Fields.get? as name = Fields.get? bs name) :
    Alike (.object type as) (.object type bs) :=
  alike_object ha hb fun name => h name ▸ rel_self_iff.2 fun v _ => .refl v

theorem alike_list {as bs : List Value} {v w : Value} (h : Alike v w) :
    Alike (.list (as ++ v :: bs)) (.list (as ++ w :: bs)) := by
  intro u hu
  cases u with
  | list items =>
    rw [built_list_iff] at hu
    show equalItems _ _ = equalItems _ _
    induction as generalizing items with
    | nil =>
      cases items with
      | nil => rfl
      | cons c items => simp only [List.nil_append, equalItems, h c (hu c List.mem_cons_self)]
    | cons a as ih =>
      cases items with
      | nil => rfl
      | cons c items =>
        simp only [List.cons_append, equalItems]
        rw [ih items fun v hv => hu v (List.mem_cons_of_mem _ hv)]
  | _ => rfl

theorem alike_map {as bs : List (Value × Value)} {e f : Value × Value} (hk : Alike e.1 f.1)
    (hv : Alike e.2 f.2) : Alike (.map (as ++ e :: bs)) (.map (as ++ f :: bs)) := by
  intro u hu
  cases u with
  | map entries =>
    rw [built_map_iff] at hu
    show equalEntries _ _ = equalEntries _ _
    induction as generalizing entries with
    | nil =>
      cases entries with
      | nil => rfl
      | cons c entries =>
        have hc := hu c List.mem_cons_self
        simp only [List.nil_append, equalEntries, hk c.1 hc.1, hv c.2 hc.2]
    | cons a as ih =>
      cases entries with
      | nil => rfl
      | cons c entries =>
        simp only [List.cons_append, equalEntries]
        rw [ih entries fun v hv => hu v (List.mem_cons_of_mem _ hv)]
  | _ => rfl

/-- One change of spelling is not noticed. -/
theorem Respelled.alike {v w : Value} (h : Respelled v w) (hv : v.Built) : Alike v w := by
  have hw := h.built_iff.1 hv
  induction h with
  | order h =>
    have hd := (built_object_iff.1 hv).1
    exact alike_object_of_get? hd (built_object_iff.1 hw).1 (Fields.get?_of_perm hd h)
  | @null type name as bs h =>
    have hfront : name ∉ as.map Prod.fst := fun hm => h (by simp [List.mem_map.1 hm])
    refine alike_object_of_get? (built_object_iff.1 hv).1 (built_object_iff.1 hw).1 fun k => ?_
    rw [Fields.get?_middle hfront]
    split
    · next hk =>
      rw [hk, Fields.get?_of_not_mem h]
      rfl
    · rfl
  | @field type name as bs v w h ih =>
    obtain ⟨hd, hfields⟩ := built_object_iff.1 hv
    obtain ⟨hd', hfields'⟩ := built_object_iff.1 hw
    have hfront : name ∉ as.map Prod.fst := fun hm => by
      rw [List.map_append, List.map_cons, List.nodup_middle, List.nodup_cons] at hd
      exact hd.1 (List.mem_append_left _ hm)
    have halike := ih (hfields (name, v) (by simp)) (hfields' (name, w) (by simp))
    refine alike_object hd hd' fun k => ?_
    rw [Fields.get?_middle hfront, Fields.get?_middle hfront, h.isNull_eq.1, h.isNull_eq.2]
    split
    · exact .some halike
    · exact rel_self_iff.2 fun v _ => .refl v
  | @item as bs v w _ ih =>
    rw [built_list_iff] at hv hw
    exact alike_list (ih (hv v (by simp)) (hw w (by simp)))
  | @key as bs k l v _ ih =>
    rw [built_map_iff] at hv hw
    exact alike_map (ih (hv (k, v) (by simp)).1 (hw (l, v) (by simp)).1) (.refl v)
  | @entry as bs k v w _ ih =>
    rw [built_map_iff] at hv hw
    exact alike_map (.refl k) (ih (hv (k, v) (by simp)).2 (hw (k, w) (by simp)).2)

/-- Nor is any number of them. -/
theorem alike_of_eqvGen {v w : Value} (h : Relation.EqvGen Respelled v w) :
    (v.Built ↔ w.Built) ∧ (v.Built → Alike v w) := by
  induction h with
  | rel v w h => exact ⟨h.built_iff, h.alike⟩
  | refl v => exact ⟨Iff.rfl, fun _ => .refl v⟩
  | symm v w _ ih => exact ⟨ih.1.symm, fun hw u hu => (ih.2 (ih.1.2 hw) u hu).symm⟩
  | trans u v w _ _ ih ih' =>
    exact ⟨ih.1.trans ih'.1, fun hu x hx => (ih.2 hu x hx).trans (ih'.2 (ih.1.1 hu) x hx)⟩

/-- **Equality does not notice how values are spelled**, on either side. -/
theorem equal_congr {v v' w w' : Value} (hv : v.Built) (hw : w.Built)
    (h : Relation.EqvGen Respelled v v') (h' : Relation.EqvGen Respelled w w') :
    v.equal w = v'.equal w' := by
  obtain ⟨hbuilt, halike⟩ := alike_of_eqvGen h
  obtain ⟨hbuilt', halike'⟩ := alike_of_eqvGen h'
  calc v.equal w
    _ = v'.equal w := halike hv w hw
    _ = w.equal v' := equal_comm (hbuilt.1 hv) hw
    _ = w'.equal v' := halike' hw v' (hbuilt.1 hv)
    _ = v'.equal w' := equal_comm (hbuilt'.1 hw) (hbuilt.1 hv)

end Value

/-! ## Objects -/

/-- The object as it comes about: without fields at first, and with each change one is set or taken
out. -/
def Object.Built (o : Object) : Prop := o.toValue.Built

/-- **Equality of objects is extensional.** -/
theorem Object.equal_extensional {a b : Object} (ha : a.Built) (hb : b.Built) :
    ((a.fields.map Prod.fst).Nodup ∧ ∀ name v, (a.set name v).fields =
      if name ∈ a.fields.map Prod.fst then
        a.fields.map fun f => if f.1 = name then (name, v) else f
      else a.fields ++ [(name, v)]) ∧
    (a.equal b = true ↔ a.type = b.type ∧
      ∀ name, Option.Rel (fun v w => v.equal w = true) (a.get? name) (b.get? name)) ∧
    (∀ v v' w w' : Value, v.Built → w.Built → Relation.EqvGen Value.Respelled v v' →
      Relation.EqvGen Value.Respelled w w' → v.equal w = v'.equal w') ∧
    (∀ v w : Value, v.Built → w.Built → v.equal w = w.equal v) ∧
    (∀ u v w : Value, u.Built → v.Built → w.Built → u.equal v = true → v.equal w = true →
      u.equal w = true) ∧
    ∀ v : Value, v.Built → (v.equal v = true ↔ ¬ v.HasNan) := by
  have had := (Value.built_object_iff.1 ha).1
  have hbd := (Value.built_object_iff.1 hb).1
  refine ⟨⟨had, fun name v => ?_⟩, Value.equal_object_iff had hbd,
    fun _ _ _ _ => Value.equal_congr, fun _ _ => Value.equal_comm,
    fun _ _ _ => Value.equal_trans, fun _ => Value.equal_self_iff⟩
  split
  · next h => exact Fields.set_of_mem had h
  · next h => exact Fields.set_of_not_mem h

/-! ## Persons -/

namespace Persons

/-- A companion, and what is known besides the name. -/
def mat (known : List (String × Value)) : Value :=
  .object "Person" (("firstname", .text "mat") :: known)

/-- A person with a companion. -/
def rand : Object :=
  (Object.set { type := "Person" } "firstname" (.text "rand")).set "coworkers" (.list [mat []])

/-- The same person with the fields in another order, and with a companion whose age is an explicit
null. -/
def reborn : Object :=
  (Object.set { type := "Person" } "coworkers" (.list [mat [("age", .null)]])).set "firstname"
    (.text "rand")

theorem built_mat : (mat []).Built ∧ (mat [("age", .null)]).Built := by
  have hname : (mat []).Built :=
    .set (.new "Person") "firstname" (.scalar (v := .text "mat") rfl)
  exact ⟨hname, .set (o := ⟨"Person", [("firstname", .text "mat")]⟩) hname "age" .null⟩

theorem built_rand : rand.Built :=
  .set (.set (.new "Person") "firstname" (.scalar rfl)) "coworkers"
    (.list fun _ hv => List.mem_singleton.1 hv ▸ built_mat.1)

theorem built_reborn : reborn.Built :=
  .set (.set (.new "Person") "coworkers" (.list fun _ hv => List.mem_singleton.1 hv ▸ built_mat.2))
    "firstname" (.scalar rfl)

theorem respelled_rand : Relation.EqvGen Value.Respelled rand.toValue reborn.toValue := by
  have hage : Value.Respelled (mat []) (mat [("age", .null)]) :=
    @Value.Respelled.null "Person" "age" [("firstname", .text "mat")] [] (by decide)
  have hlist : Value.Respelled (.list [mat []]) (.list [mat [("age", .null)]]) :=
    @Value.Respelled.item [] [] _ _ hage
  have hinside : Value.Respelled rand.toValue (.object "Person"
      [("firstname", .text "rand"), ("coworkers", .list [mat [("age", .null)]])]) :=
    @Value.Respelled.field "Person" "coworkers" [("firstname", .text "rand")] [] _ _ hlist
  exact .trans _ _ _ (.rel _ _ hinside) (.rel _ _ (.order (.swap _ _ [])))

/-- The two are equal, field by field, and the first one is as little told from the second as from
itself. A list with a number that is none is not equal to itself. -/
theorem equal_extensional_rand : rand.Built ∧ reborn.Built ∧
    (∀ name, Option.Rel (fun v w => v.equal w = true) (rand.get? name) (reborn.get? name)) ∧
    rand.toValue.equal rand.toValue = rand.toValue.equal reborn.toValue ∧
    reborn.equal reborn = true ∧
    (Value.list [.float .nan]).equal (.list [.float .nan]) = false := by
  obtain ⟨-, hiff, hcongr, hcomm, htrans, hself⟩ :=
    Object.equal_extensional built_rand built_reborn
  have hequal : rand.equal reborn = true := by decide +kernel
  have hback : reborn.equal rand = true := (hcomm _ _ built_reborn built_rand).trans hequal
  have hnan : (Value.list [.float .nan]).Built :=
    .list fun _ hv => List.mem_singleton.1 hv ▸ .scalar rfl
  refine ⟨built_rand, built_reborn, (hiff.1 hequal).2,
    hcongr _ _ _ _ built_rand built_rand (.refl _) respelled_rand,
    htrans _ _ _ built_reborn built_rand built_reborn hback hequal, ?_⟩
  rw [← Bool.not_eq_true, hself _ hnan, not_not]
  exact .item List.mem_cons_self .number

end Persons

end FlatGraph
