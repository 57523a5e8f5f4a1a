import FlatGraph.Proofs.Convert.Read

/-!
# Reads with different resolvers

A read asks its resolver for one reference after the other. What is answered, the read hands on into
the value: which references come next does not depend on it, and an error ends the read. So two
reads of one record with different resolvers go side by side (`Parallel`).

**Theorem (`read_parallel`).** A read with another resolver is the same, if the resolvers agree on
the references that it resolves. It ends with the error that resolving one of them ends with. If the
other resolver finds other entities, or none, the read still succeeds or fails as before.

There is a rule for each way in which readings are put together, and a lemma for each function of
the reader.
-/

namespace FlatGraph.Read

open Traced (mark fail)

variable {α β γ : Type} {resolve resolve' : Resolver} {nested nested' : Nested}
  {x x' : Reading α} {y y' : Reading β} {es : Entries}

/-- Two readings, the first one with `resolve` and the second one with `resolve'`, that differ only
by what the resolvers answer. -/
structure Parallel (resolve resolve' : Resolver) (x x' : Reading α) : Prop where
  same : (∀ reference ∈ x.trace, resolve' reference = resolve reference) → x' = x
  surfaces : ∀ reference ∈ x.trace, ∀ e, resolve reference = .error e → x.outcome = .error e
  succeeds : (∀ reference ∈ x.trace, resolve' reference = resolve reference ∨
      ∃ o?, resolve' reference = .ok o?) →
    ∀ a, x.outcome = .ok a → ∃ a', x'.outcome = .ok a'
  fails : (∀ reference ∈ x.trace, resolve' reference = resolve reference ∨
      ∃ o? o'?, resolve reference = .ok o? ∧ resolve' reference = .ok o'?) →
    ∀ e, x.outcome = .error e → x'.outcome = .error e

namespace Parallel

/-! ## Rules -/

/-- A reading that resolves no reference. -/
theorem of_untraced (h : x.trace = []) : Parallel resolve resolve' x x where
  same _ := rfl
  surfaces reference hr := by
    rw [h] at hr
    cases hr
  succeeds _ a ha := ⟨a, ha⟩
  fails _ _ he := he

/-- A reading that resolves one reference. -/
theorem ask (reference : Reference) (g : Option Object → α) :
    Parallel resolve resolve'
      (do mark reference; pure (g (← resolve reference)))
      (do mark reference; pure (g (← resolve' reference))) := by
  have hask : ∀ resolver : Resolver,
      (do mark reference; pure (g (← resolver reference)) : Reading α) =
        ⟨[reference], (resolver reference).map g⟩ := fun resolver => by
    cases h : resolver reference <;> rfl
  rw [hask, hask]
  constructor
  · intro h
    rw [h reference List.mem_cons_self]
  · intro r hr e he
    rw [List.mem_singleton.1 hr] at he
    exact Outcome.map_eq_error_iff.2 he
  · intro h a ha
    rcases h reference List.mem_cons_self with heq | ⟨o?, ho⟩
    · exact ⟨a, by rw [heq]; exact ha⟩
    · exact ⟨g o?, by rw [ho]; rfl⟩
  · intro h e he
    have he := Outcome.map_eq_error_iff.1 he
    rcases h reference List.mem_cons_self with heq | ⟨o?, -, ho, -⟩
    · exact Outcome.map_eq_error_iff.2 (heq.trans he)
    · cases ho.symm.trans he

/-- Both readings go on with a result that asks for no reference. -/
theorem after {r : Except Error α} {f f' : α → Reading β}
    (h : ∀ a, r = .ok a → Parallel resolve resolve' (f a) (f' a)) :
    Parallel resolve resolve' (liftM r >>= f) (liftM r >>= f') := by
  cases r with
  | error e => exact of_untraced rfl
  | ok a =>
    rw [show (liftM (Except.ok a : Except Error α) : Reading α) = pure a from rfl, pure_bind,
      pure_bind]
    exact h a rfl

/-- The second one of two readings, whose results are put together, does not depend on what the
first one finds. -/
theorem both (hx : Parallel resolve resolve' x x') (hy : Parallel resolve resolve' y y')
    (g : α → β → γ) :
    Parallel resolve resolve' (do let a ← x; let b ← y; pure (g a b))
      (do let a ← x'; let b ← y'; pure (g a b)) := by
  have hfirst : ∀ reference ∈ x.trace,
      reference ∈ (do let a ← x; let b ← y; pure (g a b) : Reading γ).trace :=
    fun reference hr => Traced.mem_trace_bind_iff.2 (.inl hr)
  have hsecond : ∀ a, x.outcome = .ok a → ∀ reference ∈ y.trace,
      reference ∈ (do let a ← x; let b ← y; pure (g a b) : Reading γ).trace :=
    fun a ha reference hr => Traced.mem_trace_bind_iff.2
      (.inr ⟨a, ha, Traced.mem_trace_bind_iff.2 (.inl hr)⟩)
  constructor
  · intro h
    rw [hx.same fun reference hr => h reference (hfirst reference hr)]
    refine Traced.bind_congr fun a ha => ?_
    rw [hy.same fun reference hr => h reference (hsecond a ha reference hr)]
  · intro reference hr e he
    rcases Traced.mem_trace_bind_iff.1 hr with hr | ⟨a, ha, hr⟩
    · rw [Traced.bind_of_error (hx.surfaces reference hr e he)]
    · rcases Traced.mem_trace_bind_iff.1 hr with hr | ⟨b, -, hr⟩
      · rw [Traced.bind_of_ok ha, Traced.bind_of_error (hy.surfaces reference hr e he)]
      · cases hr
  · intro h c hc
    obtain ⟨a, ha, hc⟩ := Traced.outcome_bind_eq_ok_iff.1 hc
    obtain ⟨b, hb, -⟩ := Traced.outcome_bind_eq_ok_iff.1 hc
    obtain ⟨a', ha'⟩ := hx.succeeds (fun reference hr => h reference (hfirst reference hr)) a ha
    obtain ⟨b', hb'⟩ :=
      hy.succeeds (fun reference hr => h reference (hsecond a ha reference hr)) b hb
    exact ⟨g a' b', Traced.outcome_bind_eq_ok_iff.2
      ⟨a', ha', Traced.outcome_bind_eq_ok_iff.2 ⟨b', hb', rfl⟩⟩⟩
  · intro h e he
    rcases Traced.outcome_bind_eq_error_iff.1 he with he | ⟨a, ha, he⟩
    · exact Traced.outcome_bind_eq_error_iff.2
        (.inl (hx.fails (fun reference hr => h reference (hfirst reference hr)) e he))
    · rcases Traced.outcome_bind_eq_error_iff.1 he with he | ⟨b, -, he⟩
      · obtain ⟨a', ha'⟩ := hx.succeeds (fun reference hr =>
          (h reference (hfirst reference hr)).imp_right fun ⟨_, o?, _, ho⟩ => ⟨o?, ho⟩) a ha
        have he' := hy.fails (fun reference hr => h reference (hsecond a ha reference hr)) e he
        exact Traced.outcome_bind_eq_error_iff.2
          (.inr ⟨a', ha', Traced.outcome_bind_eq_error_iff.2 (.inl he')⟩)
      · cases he

theorem map (hx : Parallel resolve resolve' x x') (g : α → β) :
    Parallel resolve resolve' (g <$> x) (g <$> x') := by
  have h := hx.both (of_untraced (x := Pure.pure ()) rfl) fun a _ => g a
  simpa only [pure_bind, map_eq_pure_bind] using h

theorem mapM {f f' : α → Reading β} {as : List α}
    (h : ∀ a ∈ as, Parallel resolve resolve' (f a) (f' a)) :
    Parallel resolve resolve' (as.mapM f) (as.mapM f') := by
  induction as with
  | nil => exact of_untraced rfl
  | cons a as ih =>
    rw [List.mapM_cons, List.mapM_cons]
    exact (h a List.mem_cons_self).both (ih fun b hb => h b (List.mem_cons_of_mem _ hb)) _

end Parallel

/-! ## Leaves -/

theorem referent_parallel (path type : String) (raw : Bytes) :
    Parallel resolve resolve' (referent resolve path type raw)
      (referent resolve' path type raw) := by
  refine Parallel.after ?_
  rintro ⟨keyspace, id⟩ -
  exact .ask ⟨id, keyspace, type⟩ (Option.map Object.toValue)

theorem leaf_parallel (path : String) (raw : Bytes) (type : TypeRef) :
    Parallel resolve resolve' (leaf resolve path raw type) (leaf resolve' path raw type) := by
  cases type with
  | scalar type => exact .of_untraced rfl
  | entity type => exact referent_parallel path type raw

/-! ## Values -/

/-- Two readers of objects whose readings are parallel. -/
abbrev NestedParallel (resolve resolve' : Resolver) (nested nested' : Nested) : Prop :=
  ∀ path type es, Parallel resolve resolve' (nested path type es) (nested' path type es)

theorem inner_parallel (h : NestedParallel resolve resolve' nested nested') (path type : String) :
    Parallel resolve resolve' (inner nested path type es) (inner nested' path type es) := by
  unfold inner
  dsimp only
  split
  · exact .of_untraced rfl
  · simp only [bind_pure_comp]
    exact (h path type (es.extract path)).map _

theorem valueAt_parallel (h : NestedParallel resolve resolve' nested nested') (type : TypeRef)
    (reference : Bool) (path : String) :
    Parallel resolve resolve' (valueAt resolve nested type reference es path)
      (valueAt resolve' nested' type reference es path) := by
  rcases isLeaf_or_nested type reference with hl | ⟨name, rfl, rfl⟩
  · rw [valueAt_of_isLeaf hl, valueAt_of_isLeaf hl]
    cases es.get? path with
    | none => exact .of_untraced rfl
    | some raw => exact leaf_parallel path raw type
  · exact inner_parallel h path name

theorem entryValue_parallel {value value' : Reading (Option Value)}
    (h : Parallel resolve resolve' value value') (path : String) (key? : Option String)
    (keyType : ScalarType) :
    Parallel resolve resolve' (entryValue path key? keyType value)
      (entryValue path key? keyType value') := by
  cases key? with
  | none => exact .of_untraced rfl
  | some text =>
    refine Parallel.after fun key _ => ?_
    cases key with
    | none => exact .of_untraced rfl
    | some key =>
      simp only [bind_pure_comp]
      exact h.map _

/-! ## Objects -/

theorem property_parallel (h : NestedParallel resolve resolve' nested nested') (path : String)
    (p : Property) :
    Parallel resolve resolve' (property resolve nested path p es)
      (property resolve' nested' path p es) := by
  cases hs : p.shape with
  | single type =>
    rw [property_single hs, property_single hs]
    exact valueAt_parallel h type p.isReference path
  | list type =>
    unfold property
    rw [hs]
    simp only [elements_eq, bind_pure_comp]
    exact (Parallel.mapM fun k _ => (valueAt_parallel h type p.isReference k).map _).map _
  | map key type =>
    unfold property
    rw [hs]
    simp only [mapEntries_eq, bind_pure_comp]
    exact (Parallel.mapM fun k _ =>
      entryValue_parallel (valueAt_parallel h type p.isReference k) _ _ _).map _

theorem object_parallel (r : Registry) (resolve resolve' : Resolver) (depth : Nat) :
    NestedParallel resolve resolve' (object r resolve depth) (object r resolve' depth) := by
  induction depth with
  | zero =>
    intro path type es
    exact .of_untraced rfl
  | succ depth ih =>
    intro path type es
    refine Parallel.after fun t _ => ?_
    simp only [bind_pure_comp]
    exact (Parallel.mapM fun p _ => (property_parallel ih _ p).map _).map _

end Read

/-- **Reads of one record with two resolvers differ only by what the resolvers answer.** -/
theorem Registry.read_parallel (r : Registry) (resolve resolve' : Resolver) (type : String)
    (es : Entries) :
    Read.Parallel resolve resolve' (r.read resolve type es) (r.read resolve' type es) := by
  unfold Registry.read
  split
  · exact .of_untraced rfl
  · simp only [bind_pure_comp]
    exact (Read.object_parallel r resolve resolve' _ "" type es).map _

end FlatGraph
