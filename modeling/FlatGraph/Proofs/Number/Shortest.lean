import FlatGraph.Number.Shortest
import FlatGraph.Proofs.Number.Integer
import FlatGraph.Proofs.Number.Rounding
import Mathlib.Data.List.DropRight

/-!
# The shortest digits read back

The digits that `Format.shortest` finds for a magnitude stand for a number that is rounded to it
(`magnitude_shortest`): every candidate is tried out by rounding it, and the last one is the
magnitude's own value.
-/

namespace FlatGraph.Number

/-! ## Decimals -/

namespace Decimal

/-- The number that a decimal stands for. -/
def value (d : Decimal) : ℚ :=
  (Nat.ofDigitChars 10 d.digits 0 : ℚ) * 10 ^ (d.point - d.digits.length)

theorem value_nonneg (d : Decimal) : 0 ≤ d.value := by
  unfold value
  positivity

end Decimal

namespace Format

variable {f : Format}

/-- The zeros at the end of digits. -/
theorem rtakeWhile_zero (ds : List Char) :
    ds.rtakeWhile (· == '0') = List.replicate (ds.rtakeWhile (· == '0')).length '0' :=
  List.eq_replicate_iff.2 ⟨rfl, fun _ hc =>
    eq_of_beq (List.mem_rtakeWhile_imp (p := (· == '0')) hc)⟩

/-- The decimal of a number of units stands for this number of units. -/
theorem value_decimalOf (f : Format) (c zeros : Nat) :
    (f.decimalOf c zeros).value = (c * 10 ^ zeros : Nat) / (10 ^ f.places : Nat) := by
  obtain ⟨ds, hds⟩ : ∃ ds, ds = (natText c).rdropWhile (· == '0') := ⟨_, rfl⟩
  obtain ⟨k, hk⟩ : ∃ k, natText c = ds ++ List.replicate k '0' :=
    ⟨_, by rw [← rtakeWhile_zero, hds, List.rdropWhile_append_rtakeWhile]⟩
  have hc : c = 10 ^ k * Nat.ofDigitChars 10 ds 0 := by
    rw [← Nat.ofDigitChars_replicate_zero, ← Nat.ofDigitChars_append, ← hk, natText,
      Nat.ofDigitChars_ten_toDigits]
  have hlen : ((natText c).length : Int) = ds.length + k := by
    rw [hk, List.length_append, List.length_replicate]
    push_cast
    rfl
  have hpoint : ((natText c).length + zeros : Int) - f.places - ds.length =
      k + zeros - f.places := by
    rw [hlen]
    ring
  have hdecimal : f.decimalOf c zeros = ⟨ds, ((natText c).length + zeros : Int) - f.places⟩ := by
    rw [hds]
    rfl
  rw [hdecimal, Decimal.value, hpoint]
  conv_rhs => rw [hc]
  push_cast
  rw [zpow_sub₀ (by norm_num), zpow_add₀ (by norm_num)]
  simp only [zpow_natCast]
  ring

theorem magnitude_decimalOf {c zeros n : Nat} (h : f.readsBack n c (10 ^ zeros) = true) :
    f.magnitude (f.decimalOf c zeros).value = n := by
  rw [value_decimalOf, magnitude_div (by positivity)]
  exact eq_of_beq h

/-- A candidate is one that reads back. -/
theorem readsBack_of_candidate {tie : Tie} {n unit c : Nat} (h : f.candidate tie n unit = some c) :
    f.readsBack n c unit = true := by
  have hchoice : ∀ first second : Nat,
      (if f.readsBack n first unit then some first
        else if f.readsBack n second unit then some second else none) = some c →
      f.readsBack n c unit = true := by
    intro first second hsome
    split_ifs at hsome with hfirst hsecond
    · cases hsome
      exact hfirst
    · cases hsome
      exact hsecond
  exact hchoice _ _ h

/-- All the digits of a magnitude stand for its value. -/
theorem value_scaled (f : Format) (n : Nat) :
    (f.decimalOf (f.scaled n) 0).value = f.value n := by
  have hexp : ((f.exponent n + f.places).toNat : Int) = f.exponent n + f.places := by
    unfold exponent places
    omega
  have htwo : (2 : ℚ) ^ (f.exponent n + f.places).toNat = 2 ^ f.exponent n * 2 ^ f.places := by
    rw [← zpow_natCast, hexp, zpow_add₀ two_ne_zero, zpow_natCast]
  have hten : (10 : ℚ) ^ f.places = 2 ^ f.places * 5 ^ f.places := by
    rw [← mul_pow]
    norm_num
  rw [value_decimalOf, scaled, value]
  push_cast
  rw [htwo, hten]
  field_simp

/-- The shortest digits are those of a number of units that reads back. -/
theorem exists_shortest {n : Nat} (tie : Tie) (h : n < f.infinity) :
    ∃ c zeros, f.shortest tie n = f.decimalOf c zeros ∧
      f.magnitude (f.decimalOf c zeros).value = n := by
  unfold shortest
  dsimp only
  cases hfound : List.findSome? _ _ with
  | none => exact ⟨_, _, rfl, by rw [value_scaled, magnitude_value h]⟩
  | some d =>
    obtain ⟨i, -, hi⟩ := List.exists_of_findSome?_eq_some hfound
    obtain ⟨c, hc, rfl⟩ := Option.map_eq_some_iff.1 hi
    exact ⟨_, _, rfl, magnitude_decimalOf (readsBack_of_candidate hc)⟩

/-- **The shortest digits of a finite magnitude are rounded to it.** -/
theorem magnitude_shortest {n : Nat} (tie : Tie) (h : n < f.infinity) :
    f.magnitude (f.shortest tie n).value = n := by
  obtain ⟨c, zeros, heq, hn⟩ := exists_shortest tie h
  rwa [heq]

/-- The shortest digits are digits, and there is one. -/
theorem isDigits_shortest {n : Nat} (tie : Tie) (hpos : 0 < n) (h : n < f.infinity) :
    IsDigits (f.shortest tie n).digits := by
  obtain ⟨c, zeros, heq, hn⟩ := exists_shortest tie h
  rw [heq]
  refine ⟨fun hnil => ?_, fun d hd => ?_⟩
  · rw [Decimal.value, hnil, Nat.ofDigitChars_nil, Nat.cast_zero, zero_mul, magnitude_zero] at hn
    exact hpos.ne hn
  · exact (isDigits_natText c).2 d ((List.rdropWhile_prefix (· == '0') _).subset hd)

end Format

end FlatGraph.Number
