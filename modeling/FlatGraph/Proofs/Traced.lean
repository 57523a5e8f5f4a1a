import FlatGraph.Traced
import Mathlib.Data.List.Forall2

/-!
# Outcomes of traced computations

Whether a sequence of traced computations succeeds, and with what, does not depend on the traces:
it succeeds exactly if each of its parts does (`outcome_bind_eq_ok_iff`, `outcome_mapM_eq_ok_iff`).
-/

namespace FlatGraph.Traced

variable {τ ε α β : Type}

@[simp] theorem outcome_mark (t : τ) : (mark t : Traced τ ε Unit).outcome = .ok () := rfl

@[simp] theorem outcome_fail (e : ε) : (fail e : Traced τ ε α).outcome = .error e := rfl

@[simp] theorem outcome_liftM (r : Except ε α) : (liftM r : Traced τ ε α).outcome = r := rfl

@[simp] theorem trace_liftM (r : Except ε α) : (liftM r : Traced τ ε α).trace = [] := rfl

theorem outcome_bind_eq_ok_iff {x : Traced τ ε α} {f : α → Traced τ ε β} {b : β} :
    (x >>= f).outcome = .ok b ↔ ∃ a, x.outcome = .ok a ∧ (f a).outcome = .ok b := by
  cases hx : x.outcome with
  | error e => simp [bind_of_error hx]
  | ok a => simp [bind_of_ok hx]

theorem outcome_bind_eq_error_iff {x : Traced τ ε α} {f : α → Traced τ ε β} {e : ε} :
    (x >>= f).outcome = .error e ↔
      x.outcome = .error e ∨ ∃ a, x.outcome = .ok a ∧ (f a).outcome = .error e := by
  cases hx : x.outcome with
  | error e' => simp [bind_of_error hx]
  | ok a => simp [bind_of_ok hx]

theorem bind_congr {x : Traced τ ε α} {f g : α → Traced τ ε β}
    (h : ∀ a, x.outcome = .ok a → f a = g a) : x >>= f = x >>= g := by
  cases hx : x.outcome with
  | error e => rw [bind_of_error hx, bind_of_error hx]
  | ok a => rw [bind_of_ok hx, bind_of_ok hx, h a hx]

theorem trace_bind_of_ok {x : Traced τ ε α} {a : α} (h : x.outcome = .ok a)
    (f : α → Traced τ ε β) : (x >>= f).trace = x.trace ++ (f a).trace := by
  rw [bind_of_ok h]

/-- What a sequence of two computations marks: what the first one does, and, if that succeeds, the
second one. -/
theorem mem_trace_bind_iff {x : Traced τ ε α} {f : α → Traced τ ε β} {t : τ} :
    t ∈ (x >>= f).trace ↔ t ∈ x.trace ∨ ∃ a, x.outcome = .ok a ∧ t ∈ (f a).trace := by
  cases hx : x.outcome with
  | error e => simp [bind_of_error hx]
  | ok a => simp [bind_of_ok hx]

theorem outcome_map_eq_ok_iff {x : Traced τ ε α} {f : α → β} {b : β} :
    (f <$> x).outcome = .ok b ↔ ∃ a, x.outcome = .ok a ∧ f a = b := by
  rw [map_eq_pure_bind, outcome_bind_eq_ok_iff]
  simp

/-- A sequence of computations succeeds exactly if all of them do. -/
theorem outcome_mapM_eq_ok_iff {f : α → Traced τ ε β} {xs : List α} {ys : List β} :
    (xs.mapM f).outcome = .ok ys ↔ List.Forall₂ (fun x y => (f x).outcome = .ok y) xs ys := by
  induction xs generalizing ys with
  | nil => simp [eq_comm]
  | cons x xs ih =>
    rw [List.mapM_cons, outcome_bind_eq_ok_iff, List.forall₂_cons_left_iff]
    refine exists_congr fun y => ?_
    rw [outcome_bind_eq_ok_iff]
    simp only [ih, outcome_pure, Except.ok.injEq]
    constructor
    · rintro ⟨hy, zs, hzs, rfl⟩
      exact ⟨zs, hy, hzs, rfl⟩
    · rintro ⟨zs, hy, hzs, rfl⟩
      exact ⟨hy, zs, hzs, rfl⟩

theorem mapM_congr {f g : α → Traced τ ε β} {xs : List α} (h : ∀ x ∈ xs, f x = g x) :
    xs.mapM f = xs.mapM g := by
  induction xs with
  | nil => rfl
  | cons x xs ih =>
    rw [List.mapM_cons, List.mapM_cons, h x List.mem_cons_self,
      ih fun y hy => h y (List.mem_cons_of_mem _ hy)]

/-! ## Inclusion -/

/-- A computation that succeeds only if its part does, and that marks all that the part marks. -/
def Includes (whole : Traced τ ε α) (part : Traced τ ε β) : Prop :=
  ∀ a, whole.outcome = .ok a → (∃ b, part.outcome = .ok b) ∧ part.trace ⊆ whole.trace

theorem Includes.refl (x : Traced τ ε α) : Includes x x := fun a h => ⟨⟨a, h⟩, List.Subset.refl _⟩

theorem Includes.trans {γ : Type} {x : Traced τ ε α} {y : Traced τ ε β} {z : Traced τ ε γ}
    (h : Includes x y) (h' : Includes y z) : Includes x z := by
  intro a ha
  obtain ⟨⟨b, hb⟩, hsub⟩ := h a ha
  obtain ⟨hz, hsub'⟩ := h' b hb
  exact ⟨hz, List.Subset.trans hsub' hsub⟩

theorem includes_first (x : Traced τ ε α) (f : α → Traced τ ε β) : Includes (x >>= f) x := by
  intro b hb
  obtain ⟨a, ha, -⟩ := outcome_bind_eq_ok_iff.1 hb
  rw [trace_bind_of_ok ha]
  exact ⟨⟨a, ha⟩, List.subset_append_left _ _⟩

theorem includes_bind {γ : Type} {x : Traced τ ε α} {f : α → Traced τ ε β} {y : Traced τ ε γ}
    (h : ∀ a, x.outcome = .ok a → Includes (f a) y) : Includes (x >>= f) y := by
  intro b hb
  obtain ⟨a, ha, hf⟩ := outcome_bind_eq_ok_iff.1 hb
  obtain ⟨hy, hsub⟩ := h a ha b hf
  rw [trace_bind_of_ok ha]
  exact ⟨hy, List.subset_append_of_subset_right _ hsub⟩

/-! ## Failures -/

/-- Whatever error the computation ends with satisfies `P`. -/
def FailsWith (P : ε → Prop) (x : Traced τ ε α) : Prop := ∀ e, x.outcome = .error e → P e

variable {P : ε → Prop}

theorem FailsWith.pure (a : α) : FailsWith P (pure a : Traced τ ε α) := fun _ h => by cases h

theorem FailsWith.mark (t : τ) : FailsWith P (mark t : Traced τ ε Unit) := fun _ h => by cases h

theorem FailsWith.fail {e : ε} (h : P e) : FailsWith P (fail e : Traced τ ε α) := by
  intro e' he
  cases he
  exact h

theorem FailsWith.liftM {r : Except ε α} (h : ∀ e, r = .error e → P e) :
    FailsWith P (liftM r : Traced τ ε α) := h

theorem FailsWith.bind {x : Traced τ ε α} {f : α → Traced τ ε β} (hx : FailsWith P x)
    (hf : ∀ a, x.outcome = .ok a → FailsWith P (f a)) : FailsWith P (x >>= f) := by
  intro e he
  rcases outcome_bind_eq_error_iff.1 he with h | ⟨a, ha, h⟩
  · exact hx e h
  · exact hf a ha e h

theorem FailsWith.map {x : Traced τ ε α} (hx : FailsWith P x) (f : α → β) :
    FailsWith P (f <$> x) := by
  rw [map_eq_pure_bind]
  exact hx.bind fun a _ => .pure (f a)

theorem FailsWith.mapM {f : α → Traced τ ε β} {xs : List α} (h : ∀ x ∈ xs, FailsWith P (f x)) :
    FailsWith P (xs.mapM f) := by
  induction xs with
  | nil => exact .pure []
  | cons x xs ih =>
    rw [List.mapM_cons]
    refine (h x List.mem_cons_self).bind fun y _ => ?_
    exact (ih fun z hz => h z (List.mem_cons_of_mem _ hz)).bind fun ys _ => .pure _

theorem FailsWith.forM {f : α → Traced τ ε Unit} {xs : List α} (h : ∀ x ∈ xs, FailsWith P (f x)) :
    FailsWith P (forM xs f) := by
  induction xs with
  | nil => exact .pure ()
  | cons x xs ih =>
    rw [List.forM_cons]
    exact (h x List.mem_cons_self).bind fun _ _ => ih fun y hy => h y (List.mem_cons_of_mem _ hy)

theorem FailsWith.mono {Q : ε → Prop} {x : Traced τ ε α} (hx : FailsWith P x)
    (h : ∀ e, P e → Q e) : FailsWith Q x := fun e he => h e (hx e he)

/-! ## Marks -/

/-- The computation leaves these marks if it succeeds, and the first ones of them if it fails; its
errors satisfy `P`. -/
structure Marks (P : ε → Prop) (x : Traced τ ε α) (marks : List τ) : Prop where
  early : x.trace <+: marks
  all : ∀ a, x.outcome = .ok a → x.trace = marks
  fails : FailsWith P x

theorem Marks.pure (a : α) : Marks P (pure a : Traced τ ε α) [] :=
  ⟨List.nil_prefix, fun _ _ => rfl, .pure a⟩

theorem Marks.mark (t : τ) : Marks P (mark t : Traced τ ε Unit) [t] :=
  ⟨List.prefix_rfl, fun _ _ => rfl, .mark t⟩

theorem Marks.liftM {r : Except ε α} (h : ∀ e, r = .error e → P e) :
    Marks P (liftM r : Traced τ ε α) [] :=
  ⟨List.nil_prefix, fun _ _ => rfl, .liftM h⟩

/-- A failure before the first mark. -/
theorem Marks.fail {e : ε} (h : P e) (marks : List τ) :
    Marks P (Traced.fail e : Traced τ ε α) marks :=
  ⟨List.nil_prefix, (fun _ h => nomatch h), .fail h⟩

theorem Marks.bind {x : Traced τ ε α} {f : α → Traced τ ε β} {marks marks' : List τ}
    (hx : Marks P x marks) (hf : ∀ a, x.outcome = .ok a → Marks P (f a) marks') :
    Marks P (x >>= f) (marks ++ marks') := by
  refine ⟨?_, fun b hb => ?_, hx.fails.bind fun a ha => (hf a ha).fails⟩
  · cases h : x.outcome with
    | error e =>
      rw [bind_of_error h]
      exact hx.early.trans (List.prefix_append _ _)
    | ok a =>
      rw [bind_of_ok h, hx.all a h]
      exact (List.prefix_append_right_inj _).2 (hf a h).early
  · obtain ⟨a, ha, hb⟩ := outcome_bind_eq_ok_iff.1 hb
    rw [trace_bind_of_ok ha, hx.all a ha, (hf a ha).all b hb]

theorem Marks.map {x : Traced τ ε α} {marks : List τ} (hx : Marks P x marks) (f : α → β) :
    Marks P (f <$> x) marks := by
  rw [map_eq_pure_bind, ← List.append_nil marks]
  exact hx.bind fun a _ => .pure (f a)

theorem Marks.mapM {f : α → Traced τ ε β} {marks : α → List τ} {xs : List α}
    (h : ∀ x ∈ xs, Marks P (f x) (marks x)) : Marks P (xs.mapM f) (xs.flatMap marks) := by
  induction xs with
  | nil => exact .pure []
  | cons x xs ih =>
    rw [List.mapM_cons, List.flatMap_cons]
    refine (h x List.mem_cons_self).bind fun y _ => ?_
    rw [← List.append_nil (xs.flatMap marks)]
    exact (ih fun z hz => h z (List.mem_cons_of_mem _ hz)).bind fun ys _ => .pure _

end FlatGraph.Traced
