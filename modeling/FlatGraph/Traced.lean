/-!
# Traced computations

A computation that can fail and that leaves a trace of what it did. A failure does not take back
the trace of what came before it.
-/

namespace FlatGraph

/-- A computation with its trace, oldest first. -/
structure Traced (τ ε α : Type) where
  trace : List τ
  outcome : Except ε α

namespace Traced

variable {τ ε α β : Type}

/-- A result without trace. -/
protected def pure (a : α) : Traced τ ε α := ⟨[], .ok a⟩

/-- Goes on from a result; the traces follow each other. -/
protected def bind (x : Traced τ ε α) (f : α → Traced τ ε β) : Traced τ ε β :=
  match x.outcome with
  | .ok a => ⟨x.trace ++ (f a).trace, (f a).outcome⟩
  | .error e => ⟨x.trace, .error e⟩

instance : Monad (Traced τ ε) where
  pure := Traced.pure
  bind := Traced.bind

/-- Leaves one mark in the trace. -/
def mark (t : τ) : Traced τ ε Unit := ⟨[t], .ok ()⟩

/-- A result or a failure without trace. -/
def lift (r : Except ε α) : Traced τ ε α := ⟨[], r⟩

/-- A failure. -/
def fail (e : ε) : Traced τ ε α := ⟨[], .error e⟩

instance : MonadExceptOf ε (Traced τ ε) where
  throw := fail
  tryCatch x handle :=
    match x.outcome with
    | .ok _ => x
    | .error e => ⟨x.trace ++ (handle e).trace, (handle e).outcome⟩

instance : MonadLift (Except ε) (Traced τ ε) where
  monadLift := lift

@[simp] theorem trace_pure (a : α) : (pure a : Traced τ ε α).trace = [] := rfl

@[simp] theorem outcome_pure (a : α) : (pure a : Traced τ ε α).outcome = .ok a := rfl

theorem bind_of_ok {x : Traced τ ε α} {a : α} (h : x.outcome = .ok a) (f : α → Traced τ ε β) :
    x >>= f = ⟨x.trace ++ (f a).trace, (f a).outcome⟩ := by
  show Traced.bind x f = _
  rw [Traced.bind, h]

theorem bind_of_error {x : Traced τ ε α} {e : ε} (h : x.outcome = .error e)
    (f : α → Traced τ ε β) : x >>= f = ⟨x.trace, .error e⟩ := by
  show Traced.bind x f = _
  rw [Traced.bind, h]

theorem id_map' (x : Traced τ ε α) : id <$> x = x := by
  obtain ⟨trace, outcome⟩ := x
  show Traced.bind _ _ = _
  cases outcome <;> simp [Traced.bind, Traced.pure]

theorem pure_bind' (a : α) (f : α → Traced τ ε β) : pure a >>= f = f a := by
  show Traced.bind (Traced.pure a) f = f a
  simp [Traced.bind, Traced.pure]

theorem bind_assoc' {γ : Type} (x : Traced τ ε α) (f : α → Traced τ ε β)
    (g : β → Traced τ ε γ) : x >>= f >>= g = x >>= fun a => f a >>= g := by
  obtain ⟨trace, outcome⟩ := x
  show Traced.bind (Traced.bind _ _) _ = Traced.bind _ _
  cases outcome with
  | error e => rfl
  | ok a =>
    simp only [Traced.bind]
    show _ = Traced.mk (trace ++ (Traced.bind (f a) g).trace) (Traced.bind (f a) g).outcome
    cases h : (f a).outcome <;> simp [Traced.bind, h]

instance : LawfulMonad (Traced τ ε) :=
  .mk' (Traced τ ε) (fun x => id_map' x) (fun a f => pure_bind' a f)
    (fun x f g => bind_assoc' x f g)

end Traced

end FlatGraph
