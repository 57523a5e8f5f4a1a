import FlatGraph.Convert.Read
import FlatGraph.Proofs.Entries
import FlatGraph.Scalar.Encode

/-!
# Fields and equality

The fields of an object are seen through `Fields.get?`. Objects with different names in each of
their lists of fields are equal if they have the same type and hold equal values in the same
fields (`equal_object`). The fields of an object that was read are those that were found
(`get?_assemble`). What is inside a value is smaller than the value.

Equal values need not be the same. Whether they are can be decided too (`Value.same`).
-/

namespace FlatGraph

theorem Value.eq_null_of_isNull {v : Value} (h : v.isNull = true) : v = .null := by
  cases v with
  | null => rfl
  | _ => cases h

/-- Every scalar has a text. -/
theorem Value.exists_toText {v : Value} (h : v.isScalar = true) : ∃ text, v.toText = .ok text := by
  cases v with
  | list | map | object | null => cases h
  | _ => exact ⟨_, rfl⟩

/-- Only scalars have a text, if they are values at all. -/
theorem Value.isScalar_of_toText {v : Value} {text : String} (hv : v.isNull = false)
    (h : v.toText = .ok text) : v.isScalar = true := by
  cases v with
  | null => cases hv
  | list | map | object => cases h
  | _ => rfl

/-! ## Sameness -/

mutual

/-- Whether two values are the same, constructor by constructor. -/
def Value.same : Value → Value → Bool
  | .null, .null => true
  | .bool a, .bool b => a == b
  | .integer a, .integer b => a == b
  | .float a, .float b => a == b
  | .text a, .text b => a == b
  | .bytes a, .bytes b => a == b
  | .enum a, .enum b => a == b
  | .date a, .date b => a == b
  | .list as, .list bs => Value.sameItems as bs
  | .map as, .map bs => Value.sameEntries as bs
  | .object a as, .object b bs => a == b && Value.sameFields as bs
  | _, _ => false
termination_by structural v => v

/-- Sameness item by item. -/
def Value.sameItems : List Value → List Value → Bool
  | [], [] => true
  | a :: as, b :: bs => a.same b && Value.sameItems as bs
  | _, _ => false
termination_by structural as => as

/-- Sameness entry by entry. -/
def Value.sameEntries : List (Value × Value) → List (Value × Value) → Bool
  | [], [] => true
  | (k, v) :: as, (l, w) :: bs => k.same l && v.same w && Value.sameEntries as bs
  | _, _ => false
termination_by structural as => as

/-- Sameness field by field. -/
def Value.sameFields : List (String × Value) → List (String × Value) → Bool
  | [], [] => true
  | (a, v) :: as, (b, w) :: bs => a == b && v.same w && Value.sameFields as bs
  | _, _ => false
termination_by structural as => as

end

mutual

theorem Value.same_iff : ∀ v w : Value, v.same w = true ↔ v = w
  | .list as, w => by cases w <;> simp [Value.same, Value.sameItems_iff as]
  | .map as, w => by cases w <;> simp [Value.same, Value.sameEntries_iff as]
  | .object _ as, w => by cases w <;> simp [Value.same, Value.sameFields_iff as]
  | .null, w | .bool _, w | .integer _, w | .float _, w | .text _, w | .bytes _, w | .enum _, w
  | .date _, w => by cases w <;> simp [Value.same]
termination_by structural v => v

theorem Value.sameItems_iff : ∀ as bs : List Value, Value.sameItems as bs = true ↔ as = bs
  | [], bs => by cases bs <;> simp [Value.sameItems]
  | a :: as, bs => by
    cases bs <;> simp [Value.sameItems, Value.same_iff a, Value.sameItems_iff as]
termination_by structural as => as

theorem Value.sameEntries_iff :
    ∀ as bs : List (Value × Value), Value.sameEntries as bs = true ↔ as = bs
  | [], bs => by cases bs <;> simp [Value.sameEntries]
  | (k, v) :: as, bs => by
    cases bs <;> simp [Value.sameEntries, Value.same_iff k, Value.same_iff v,
      Value.sameEntries_iff as, Prod.ext_iff]
termination_by structural as => as

theorem Value.sameFields_iff :
    ∀ as bs : List (String × Value), Value.sameFields as bs = true ↔ as = bs
  | [], bs => by cases bs <;> simp [Value.sameFields]
  | (a, v) :: as, bs => by
    cases bs <;> simp [Value.sameFields, Value.same_iff v, Value.sameFields_iff as, Prod.ext_iff]
termination_by structural as => as

end

instance : DecidableEq Value := fun v w => decidable_of_iff _ (v.same_iff w)

instance : DecidableEq Object := fun a b =>
  decidable_of_iff (a.type = b.type ∧ a.fields = b.fields) (by cases a; cases b; simp)
/-! ## Sizes -/

namespace Value

theorem sizeOf_lt_of_mem_items {items : List Value} {v : Value} (h : v ∈ items) :
    sizeOf v < sizeOf (list items) := by
  have := List.sizeOf_lt_of_mem h
  simp only [list.sizeOf_spec]
  omega

theorem sizeOf_lt_of_mem_entries {entries : List (Value × Value)} {e : Value × Value}
    (h : e ∈ entries) : sizeOf e.1 + sizeOf e.2 < sizeOf (map entries) := by
  have := List.sizeOf_lt_of_mem h
  have : sizeOf e = 1 + sizeOf e.1 + sizeOf e.2 := rfl
  simp only [map.sizeOf_spec]
  omega

theorem sizeOf_lt_of_mem_fields {type : String} {fields : List (String × Value)}
    {f : String × Value} (h : f ∈ fields) : sizeOf f.2 < sizeOf (object type fields) := by
  have := List.sizeOf_lt_of_mem h
  have : sizeOf f = 1 + sizeOf f.1 + sizeOf f.2 := rfl
  simp only [object.sizeOf_spec]
  omega

end Value

namespace Fields

theorem isNull_of_get? {fields : List (String × Value)} {name : String} {v : Value}
    (h : get? fields name = some v) : v.isNull = false := by
  simpa using (Option.filter_eq_some_iff.1 h).2

theorem get?_cons (a k : String) (v : Value) (fields : List (String × Value)) :
    get? ((a, v) :: fields) k =
      if k = a then (if v.isNull then none else some v) else get? fields k := by
  unfold get?
  rw [Lists.lookup_cons_eq]
  split
  · cases h : v.isNull <;> simp [Option.filter, h]
  · rfl

theorem get?_eq_some_iff {fields : List (String × Value)} (h : (fields.map Prod.fst).Nodup)
    {name : String} {v : Value} :
    get? fields name = some v ↔ (name, v) ∈ fields ∧ v.isNull = false := by
  rw [get?, Option.filter_eq_some_iff, Lists.lookup_eq_some_iff h, Bool.not_eq_true']

/-! ## Setting fields -/

theorem get?_set (name : String) {value : Value} (hv : value.isNull = false)
    (fields : List (String × Value)) (k : String) :
    get? (set name value fields) k = if k = name then some value else get? fields k := by
  induction fields with
  | nil => simp [set, get?_cons, hv]
  | cons f fields ih =>
    obtain ⟨a, v⟩ := f
    unfold set
    by_cases ha : a = name
    · subst ha
      rw [if_pos rfl, get?_cons, get?_cons]
      split <;> simp [hv]
    · rw [if_neg ha, get?_cons, get?_cons, ih]
      by_cases hk : k = a
      · subst hk
        rw [if_pos rfl, if_neg ha, if_pos rfl]
      · rw [if_neg hk, if_neg hk]

theorem mem_of_mem_set {name : String} {value : Value} {fields : List (String × Value)}
    {f : String × Value} (h : f ∈ set name value fields) : f = (name, value) ∨ f ∈ fields := by
  induction fields with
  | nil => exact .inl (List.mem_singleton.1 h)
  | cons g fields ih =>
    unfold set at h
    split_ifs at h
    · exact (List.mem_cons.1 h).imp_right (List.mem_cons_of_mem _)
    · rcases List.mem_cons.1 h with rfl | h
      · exact .inr List.mem_cons_self
      · exact (ih h).imp_right (List.mem_cons_of_mem _)

theorem map_fst_set (name : String) (value : Value) (fields : List (String × Value)) :
    (set name value fields).map Prod.fst =
      if name ∈ fields.map Prod.fst then fields.map Prod.fst
      else fields.map Prod.fst ++ [name] := by
  induction fields with
  | nil => simp [set]
  | cons f fields ih =>
    unfold set
    by_cases ha : f.1 = name
    · simp [ha]
    · have ha' : name ≠ f.1 := Ne.symm ha
      simp only [ha, if_false, List.map_cons, ih, List.mem_cons, ha', false_or]
      split <;> simp

theorem nodup_set (name : String) (value : Value) {fields : List (String × Value)}
    (h : (fields.map Prod.fst).Nodup) : ((set name value fields).map Prod.fst).Nodup := by
  rw [map_fst_set]
  split
  · exact h
  · next hn => exact List.nodup_append.2 ⟨h, by simp, by
      rintro a ha b hb rfl
      exact hn (List.mem_singleton.1 hb ▸ ha)⟩

end Fields

/-! ## Objects that were read -/

namespace Read

open Fields (get?_set nodup_set)

/-- The values that are set on an object one after another. -/
def setAll (o : Object) (found : List (String × Option Value)) : Object :=
  found.foldl (fun o f => match f.2 with
    | some v => o.set f.1 v
    | none => o) o

theorem assemble_eq_setAll (type : String) (found : List (String × Option Value)) :
    assemble type found = setAll ⟨type, []⟩ found := rfl

theorem setAll_type (found : List (String × Option Value)) :
    ∀ o, (setAll o found).type = o.type := by
  induction found with
  | nil => exact fun _ => rfl
  | cons f found ih =>
    intro o
    obtain ⟨a, v?⟩ := f
    refine (ih _).trans ?_
    cases v? <;> rfl

@[simp] theorem assemble_type (type : String) (found : List (String × Option Value)) :
    (assemble type found).type = type := setAll_type found _

theorem nodup_setAll (found : List (String × Option Value)) :
    ∀ o : Object, (o.fields.map Prod.fst).Nodup →
      ((setAll o found).fields.map Prod.fst).Nodup := by
  induction found with
  | nil => exact fun _ h => h
  | cons f found ih =>
    intro o h
    obtain ⟨a, v?⟩ := f
    refine ih _ ?_
    cases v? with
    | none => exact h
    | some v => exact nodup_set _ _ h

theorem nodup_assemble (type : String) (found : List (String × Option Value)) :
    ((assemble type found).fields.map Prod.fst).Nodup := nodup_setAll found _ List.nodup_nil

theorem mem_of_mem_setAll {found : List (String × Option Value)} {f : String × Value} :
    ∀ o : Object, f ∈ (setAll o found).fields → f ∈ o.fields ∨ (f.1, some f.2) ∈ found := by
  induction found with
  | nil => exact fun _ hf => .inl hf
  | cons g found ih =>
    intro o hf
    obtain ⟨name, v?⟩ := g
    rcases ih _ hf with hf | hf
    · cases v? with
      | none => exact .inl hf
      | some value =>
        rcases Fields.mem_of_mem_set hf with rfl | hf
        · exact .inr List.mem_cons_self
        · exact .inl hf
    · exact .inr (List.mem_cons_of_mem _ hf)

/-- Each field of an object that was read was found. -/
theorem mem_of_mem_assemble {type : String} {found : List (String × Option Value)}
    {f : String × Value} (h : f ∈ (assemble type found).fields) : (f.1, some f.2) ∈ found :=
  (mem_of_mem_setAll _ h).resolve_left fun h => nomatch h

theorem get?_setAll {found : List (String × Option Value)} (hd : (found.map Prod.fst).Nodup)
    (hv : ∀ f ∈ found, ∀ v, f.2 = some v → v.isNull = false) (name : String) :
    ∀ o : Object, (setAll o found).get? name = ((found.lookup name).join).or (o.get? name) := by
  induction found with
  | nil => exact fun _ => rfl
  | cons f found ih =>
    intro o
    rw [List.map_cons, List.nodup_cons] at hd
    obtain ⟨a, v?⟩ := f
    have hrest := ih hd.2 fun f hf => hv f (List.mem_cons_of_mem _ hf)
    have hnone : found.lookup a = none := Lists.lookup_eq_none_iff.2 hd.1
    rw [Lists.lookup_cons_eq]
    cases v? with
    | none =>
      refine (hrest o).trans ?_
      split
      · next hk => simp [hk, hnone]
      · rfl
    | some v =>
      refine (hrest (o.set a v)).trans ?_
      have hset : (o.set a v).get? name = if name = a then some v else o.get? name :=
        get?_set a (hv _ List.mem_cons_self v rfl) o.fields name
      rw [hset]
      split
      · next hk => simp [hk, hnone]
      · rfl

/-- An object that was read holds what was found for its fields. -/
theorem get?_assemble {type : String} {found : List (String × Option Value)}
    (hd : (found.map Prod.fst).Nodup)
    (hv : ∀ f ∈ found, ∀ v, f.2 = some v → v.isNull = false) (name : String) :
    (assemble type found).get? name = (found.lookup name).join := by
  rw [assemble_eq_setAll, get?_setAll hd hv]
  exact Option.or_none

end Read

/-! ## Equality -/

namespace Value

theorem fieldsWithin_iff {as bs : List (String × Value)} :
    fieldsWithin as bs = true ↔
      ∀ f ∈ as, f.2.isNull = false → ∃ w, Fields.get? bs f.1 = some w ∧ f.2.equal w = true := by
  induction as with
  | nil => simp [fieldsWithin]
  | cons f as ih =>
    obtain ⟨a, v⟩ := f
    rw [fieldsWithin, Bool.and_eq_true, ih, List.forall_mem_cons]
    refine and_congr_left fun _ => ?_
    cases v.isNull <;> cases Fields.get? bs a <;> simp

theorem equalItems_iff {as bs : List Value} :
    equalItems as bs = true ↔ List.Forall₂ (fun a b => a.equal b = true) as bs := by
  induction as generalizing bs with
  | nil => cases bs <;> simp [equalItems]
  | cons a as ih => cases bs <;> simp [equalItems, ih]

theorem equalEntries_iff {as bs : List (Value × Value)} :
    equalEntries as bs = true ↔
      List.Forall₂ (fun a b => a.1.equal b.1 = true ∧ a.2.equal b.2 = true) as bs := by
  induction as generalizing bs with
  | nil => cases bs <;> simp [equalEntries]
  | cons a as ih => cases bs <;> simp [equalEntries, ih]

theorem isNull_of_equal {v w : Value} (h : v.equal w = true) : w.isNull = v.isNull := by
  cases v <;> cases w <;> first | rfl | simp [Value.equal] at h

/-- The names of the fields that hold a value. -/
def named (fields : List (String × Value)) : List String :=
  (fields.filter (!·.2.isNull)).map Prod.fst

theorem mem_named_iff {fields : List (String × Value)} (h : (fields.map Prod.fst).Nodup)
    {name : String} : name ∈ named fields ↔ ∃ v, Fields.get? fields name = some v := by
  simp only [named, List.mem_map, List.mem_filter, Fields.get?_eq_some_iff h, Bool.not_eq_true']
  constructor
  · rintro ⟨f, hf, rfl⟩
    exact ⟨f.2, hf⟩
  · rintro ⟨v, hv⟩
    exact ⟨(name, v), hv, rfl⟩

theorem nodup_named {fields : List (String × Value)} (h : (fields.map Prod.fst).Nodup) :
    (named fields).Nodup := h.sublist (List.filter_sublist.map _)

theorem count_eq_length_named (fields : List (String × Value)) :
    Fields.count fields = (named fields).length := by
  rw [Fields.count, named, List.length_map, List.countP_eq_length_filter]

theorem exists_get?_of_count {fields : List (String × Value)} (h : (fields.map Prod.fst).Nodup)
    (hc : Fields.count fields ≠ 0) : ∃ name v, Fields.get? fields name = some v := by
  rw [count_eq_length_named] at hc
  obtain ⟨name, hn⟩ := List.exists_mem_of_ne_nil _ fun h0 => hc (List.length_eq_zero_iff.2 h0)
  exact ⟨name, (mem_named_iff h).1 hn⟩

/-- **Objects are equal if they hold equal values in the same fields.** -/
theorem equal_object {type : String} {as bs : List (String × Value)}
    (ha : (as.map Prod.fst).Nodup) (hb : (bs.map Prod.fst).Nodup)
    (h : ∀ name, Option.Rel (fun v w => v.equal w = true) (Fields.get? as name)
      (Fields.get? bs name)) :
    (Value.object type as).equal (.object type bs) = true := by
  have hcount : Fields.count as = Fields.count bs := by
    rw [count_eq_length_named, count_eq_length_named]
    refine List.Perm.length_eq ((List.perm_ext_iff_of_nodup (nodup_named ha) (nodup_named hb)).2 ?_)
    intro name
    rw [mem_named_iff ha, mem_named_iff hb]
    have := h name
    revert this
    cases Fields.get? as name <;> cases Fields.get? bs name <;> simp
  rw [Value.equal, hcount, beq_self_eq_true, beq_self_eq_true, Bool.true_and, Bool.true_and,
    fieldsWithin_iff]
  intro f hf hn
  have := h f.1
  rw [(Fields.get?_eq_some_iff ha).2 ⟨hf, hn⟩] at this
  revert this
  cases Fields.get? bs f.1 <;> simp

/-- An object is equal to one that is put together from what was found for each of its fields. -/
theorem equal_assemble {type : String} {fields : List (String × Value)}
    {found : List (String × Option Value)} (hd : (fields.map Prod.fst).Nodup)
    (hnd : (found.map Prod.fst).Nodup)
    (hn : ∀ name v, Fields.get? fields name = some v → name ∈ found.map Prod.fst)
    (h : ∀ f ∈ found, Option.Rel (fun v w => v.equal w = true) (Fields.get? fields f.1) f.2) :
    (Value.object type fields).equal (Read.assemble type found).toValue = true := by
  have hnull : ∀ f ∈ found, ∀ w, f.2 = some w → w.isNull = false := fun f hf w hw => by
    have hrel := h f hf
    rw [hw] at hrel
    cases hv : Fields.get? fields f.1 with
    | none =>
      rw [hv] at hrel
      cases hrel
    | some v =>
      rw [hv, Option.rel_some_some] at hrel
      rw [isNull_of_equal hrel, Fields.isNull_of_get? hv]
  rw [Object.toValue, Read.assemble_type]
  refine equal_object hd (Read.nodup_assemble _ _) fun name => ?_
  rw [← Object.get?, Read.get?_assemble hnd hnull]
  cases hl : found.lookup name with
  | some v? => exact h (name, v?) ((Lists.lookup_eq_some_iff hnd).1 hl)
  | none =>
    have hnone : Fields.get? fields name = none := Option.eq_none_iff_forall_not_mem.2 fun v hv =>
      Lists.lookup_eq_none_iff.1 hl (hn name v hv)
    rw [hnone]
    exact .none

end Value

end FlatGraph
