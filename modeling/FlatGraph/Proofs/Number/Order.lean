import FlatGraph.Proofs.Lists
import FlatGraph.Proofs.Number.Notation

/-!
# The order of values

Rounding to another format keeps the order of values, and so does reading their text in another
format. So of the values in single precision only the greatest ones can get beyond the range of
single precision when they are read in double precision, and they do (`exceeds_reread_iff`).

A step from values to values of the same format that keeps their order moves none of the values
that it only rearranges (`detour_eq_self_of_perm`).
-/

namespace FlatGraph.Number

namespace Format

variable {f g : Format} {m n : Nat}

/-- The order of finite magnitudes is that of what their texts say. -/
theorem written_le_written (hn : n < f.infinity) (h : m ≤ n) : f.written m ≤ f.written n := by
  by_contra hlt
  rw [not_le] at hlt
  have hle := magnitude_le_magnitude (f := f) (f.written_nonneg n) hlt.le
  rw [magnitude_written hn, magnitude_written (h.trans_lt hn)] at hle
  rw [le_antisymm h hle] at hlt
  exact lt_irrefl _ hlt

theorem reread_le_reread (hn : n ≤ f.infinity) (h : m ≤ n) : f.reread g m ≤ f.reread g n := by
  rcases hn.eq_or_lt with rfl | hlt
  · rw [reread_infinity]
    exact reread_le_infinity f g m
  · rw [reread_of_lt hlt, reread_of_lt (h.trans_lt hlt)]
    exact magnitude_le_magnitude (f.written_nonneg m) (written_le_written hlt h)

/-- The magnitude of the second format that is nearest to a magnitude of the first one. -/
def rounded (f g : Format) (n : Nat) : Nat :=
  if n < f.infinity then g.magnitude (f.value n) else g.infinity

theorem rounded_le_infinity (f g : Format) (n : Nat) : f.rounded g n ≤ g.infinity := by
  unfold rounded
  split
  · exact g.magnitude_le_infinity _
  · exact le_rfl

theorem rounded_le_rounded (h : m ≤ n) : f.rounded g m ≤ f.rounded g n := by
  by_cases hn : n < f.infinity
  · rw [rounded, rounded, if_pos hn, if_pos (h.trans_lt hn)]
    exact magnitude_le_magnitude (f.value_nonneg m) (value_le_value (h.trans_lt hn) hn h)
  · conv_rhs => rw [rounded, if_neg hn]
    exact rounded_le_infinity f g m

end Format

namespace Floating

variable {f g : Format}

theorem convert_signed (negative : Bool) (m : Fin (f.infinity + 1)) :
    (signed negative m).convert (g := g) =
      .signed negative ⟨f.rounded g m, Nat.lt_succ_of_le (f.rounded_le_infinity g m)⟩ := by
  unfold convert
  by_cases hm : m.val < f.infinity
  · have hr : f.rounded g m = g.magnitude (f.value m) := if_pos hm
    simp only [hm, if_true, hr]
    rw [ofRatio_eq negative (by positivity), ← Format.value_eq_div]
    rfl
  · have hr : f.rounded g m = g.infinity := if_neg hm
    simp only [hm, if_false, hr]
    rfl

/-! ## Beyond the range -/

theorem infinity_sub_one_lt (f : Format) : f.infinity - 1 < f.infinity + 1 := by omega

/-- The greatest finite value, with a sign. -/
def greatest (f : Format) (negative : Bool) : Floating f :=
  .signed negative ⟨f.infinity - 1, infinity_sub_one_lt f⟩

theorem exceeds_signed {negative : Bool} {m : Fin (f.infinity + 1)} :
    (signed negative m).exceeds g = true ↔
      m.val < f.infinity ∧ g.rounded f (g.infinity - 1) < m := by
  unfold exceeds
  rw [convert_signed]
  simp

/-- **Read in double precision, a value in single precision lies beyond that range only if it is the
greatest one**, of either sign: its shortest text is rounded up. -/
theorem exceeds_reread_iff {x : Floating binary32} :
    (x.reread binary64).exceeds binary32 = true ↔ ∃ negative, x = greatest binary32 negative := by
  cases x with
  | nan => exact iff_of_false Bool.false_ne_true (by rintro ⟨_, ⟨⟩⟩)
  | signed negative m =>
    have hgreatest : binary32.rounded binary64 (binary32.infinity - 1) <
        binary32.reread binary64 (binary32.infinity - 1) := by decide +kernel
    have hfinite : binary32.reread binary64 (binary32.infinity - 1) < binary64.infinity := by
      decide +kernel
    have hbelow : binary32.reread binary64 (binary32.infinity - 2) ≤
        binary32.rounded binary64 (binary32.infinity - 1) := by decide +kernel
    rw [reread, exceeds_signed]
    dsimp only
    constructor
    · rintro ⟨hlt, hexceeds⟩
      have hm : m.val = binary32.infinity - 1 := by
        rcases lt_trichotomy m.val (binary32.infinity - 1) with h | h | h
        · have hle : m.val ≤ binary32.infinity - 2 := by omega
          have := Format.reread_le_reread (g := binary64) (Nat.sub_le binary32.infinity 2) hle
          omega
        · exact h
        · have hm : m.val = binary32.infinity := by omega
          rw [hm, Format.reread_infinity] at hlt
          exact absurd hlt (lt_irrefl _)
      exact ⟨negative, congrArg (signed negative) (Fin.ext hm)⟩
    · rintro ⟨_, h⟩
      cases h
      exact ⟨hfinite, hgreatest⟩

/-! ## Ranks -/

/-- The place of a value in the order of all values of the format: the negative ones, the others,
and what is no number. -/
def rank : Floating f → Nat
  | .nan => 2 * f.infinity + 2
  | .signed true m => f.infinity - m
  | .signed false m => f.infinity + 1 + m

theorem rank_injective : Function.Injective (rank : Floating f → Nat) := by
  intro x y h
  rcases x with _ | ⟨_ | _, m⟩ <;> rcases y with _ | ⟨_ | _, n⟩ <;> simp only [rank] at h
  all_goals first
    | rfl
    | congr 1; exact Fin.ext (by omega)
    | omega

/-! ## Detours -/

/-- A value that is read from its text in the other format and rounded back. -/
def detour (g : Format) (x : Floating f) : Floating f := (x.reread g).convert

theorem detour_nan : (nan : Floating f).detour g = nan := rfl

theorem detour_signed (negative : Bool) (m : Fin (f.infinity + 1)) :
    (signed negative m).detour g =
      .signed negative
        ⟨g.rounded f (f.reread g m), Nat.lt_succ_of_le (g.rounded_le_infinity f _)⟩ :=
  convert_signed _ _

/-- **A detour keeps the order of values.** -/
theorem rank_detour_le_rank_detour {x y : Floating f} (h : x.rank ≤ y.rank) :
    (x.detour g).rank ≤ (y.detour g).rank := by
  have hmono : ∀ m n : Fin (f.infinity + 1), m.val ≤ n.val →
      g.rounded f (f.reread g m) ≤ g.rounded f (f.reread g n) := fun m n hmn =>
    Format.rounded_le_rounded (Format.reread_le_reread (Nat.le_of_lt_succ n.isLt) hmn)
  have hbound : ∀ m : Fin (f.infinity + 1), g.rounded f (f.reread g m) ≤ f.infinity := fun m =>
    g.rounded_le_infinity f _
  rcases x with _ | ⟨_ | _, m⟩ <;> rcases y with _ | ⟨_ | _, n⟩ <;>
    simp only [detour_nan, detour_signed, rank] at h ⊢
  case nan.nan => exact le_rfl
  case signed.true.signed.true =>
    have := hmono n m (by omega)
    omega
  case signed.false.signed.false =>
    have := hmono m n (by omega)
    omega
  case nan.signed.false =>
    have := n.isLt
    omega
  case signed.false.nan =>
    have := hbound m
    omega
  -- The others are about different signs.
  all_goals omega

/-- **A value that a detour only exchanges with others is not changed by it.** -/
theorem detour_eq_self_of_perm {xs : List (Floating f)} (h : xs.Perm (xs.map (detour g))) :
    ∀ x ∈ xs, x.detour g = x := by
  obtain ⟨ys, hys⟩ : ∃ ys, ys = xs.mergeSort fun a b => a.rank ≤ b.rank := ⟨_, rfl⟩
  have hsorted : ys.Pairwise fun a b => a.rank ≤ b.rank := hys ▸ Lists.pairwise_mergeSort rank xs
  have hperm : ys.Perm xs := hys ▸ List.mergeSort_perm xs _
  have hmap : (ys.map (detour g)).Pairwise fun a b => a.rank ≤ b.rank :=
    List.pairwise_map.2 (hsorted.imp rank_detour_le_rank_detour)
  have heq : ys = ys.map (detour g) :=
    List.Perm.eq_of_pairwise (fun a b _ _ hab hba => rank_injective (le_antisymm hab hba))
      hsorted hmap (hperm.trans (h.trans (hperm.map _).symm))
  intro x hx
  have hid : ys.map (detour g) = ys.map id := by rw [← heq, List.map_id]
  exact List.map_inj_left.1 hid x (hperm.mem_iff.2 hx)

end Floating

end FlatGraph.Number
