import FlatGraph.Number.Floating
import Mathlib.Algebra.Order.Field.Power
import Mathlib.Data.Rat.Cast.Order
import Mathlib.Tactic.FieldSimp
import Mathlib.Tactic.Linarith
import Mathlib.Tactic.Positivity
import Mathlib.Tactic.Ring

/-!
# Rounding

Rounding depends on the ratio alone, and a greater ratio is not rounded to a lesser magnitude
(`round_le_round`): as a function on numbers (`Format.magnitude`) it is monotone
(`magnitude_le_magnitude`), and takes the value of a magnitude to the magnitude (`magnitude_value`).

What carries the proof is a description of the exponent at which a ratio is rounded (`IsScale`): it
is the least one at which the significand does not overflow, or the least of the format. There is
only one such exponent for each ratio, and a greater ratio has no lesser one.
-/

namespace FlatGraph.Number.Format

variable {f : Format}

/-! ## The nearest whole number -/

theorem nearest_eq (num den : Nat) :
    nearest num den =
      if 2 * (num % den) < den then num / den
      else if den < 2 * (num % den) then num / den + 1
      else num / den + num / den % 2 := by
  unfold nearest
  dsimp only
  rcases Nat.lt_trichotomy (2 * (num % den)) den with h | h | h
  · rw [Nat.compare_eq_lt.2 h, if_pos h]
  · rw [Nat.compare_eq_eq.2 h, if_neg h.not_lt, if_neg h.symm.not_lt]
  · rw [Nat.compare_eq_gt.2 h, if_neg (Nat.not_lt.2 h.le), if_pos h]

theorem le_nearest (num den : Nat) : num / den ≤ nearest num den := by
  rw [nearest_eq]
  split_ifs <;> omega

theorem nearest_le (num den : Nat) : nearest num den ≤ num / den + 1 := by
  rw [nearest_eq]
  split_ifs <;> omega

theorem nearest_mul_self {den : Nat} (h : 0 < den) (n : Nat) : nearest (n * den) den = n := by
  rw [nearest_eq, Nat.mul_mod_left, if_pos (by omega), Nat.mul_div_cancel _ h]

/-- A greater ratio has no lesser whole number nearest to it. -/
theorem nearest_le_nearest {a b c d : Nat} (hb : 0 < b) (hd : 0 < d) (h : a * d ≤ c * b) :
    nearest a b ≤ nearest c d := by
  have hdiv : a / b ≤ c / d := by
    rw [Nat.le_div_iff_mul_le hd]
    refine Nat.le_of_mul_le_mul_right ?_ hb
    calc a / b * d * b = a / b * b * d := by ring
      _ ≤ a * d := Nat.mul_le_mul_right d (Nat.div_mul_le_self a b)
      _ ≤ c * b := h
  rcases hdiv.lt_or_eq with hlt | heq
  · exact (nearest_le a b).trans (le_trans hlt (le_nearest c d))
  -- With equal quotients, the remainders are in the same order.
  have hrest : a % b * d ≤ c % d * b := by
    have ha := Nat.div_add_mod a b
    have hc := Nat.div_add_mod c d
    rw [← ha, ← hc, heq] at h
    nlinarith
  have hlow : d ≤ 2 * (c % d) ∨ 2 * (a % b) < b := by
    by_contra hno
    rw [not_or, Nat.not_le, Nat.not_lt] at hno
    nlinarith
  have hhigh : d < 2 * (c % d) ∨ 2 * (a % b) ≤ b := by
    by_contra hno
    rw [not_or, Nat.not_lt, Nat.not_le] at hno
    nlinarith
  rw [nearest_eq, nearest_eq, heq]
  split_ifs <;> omega

/-! ## The exponent of a ratio -/

/-- The exponent at which a ratio is rounded: that at which the significand has all its bits, or
the least of the format. -/
structure IsScale (f : Format) (q : ℚ) (e : Int) : Prop where
  least_le : f.leastExponent ≤ e
  lt : q < 2 ^ (e + f.fractionBits + 1)
  le : e = f.leastExponent ∨ 2 ^ (e + f.fractionBits) ≤ q

/-- A greater ratio has no lesser exponent. -/
theorem IsScale.le_of_le {q q' : ℚ} {e e' : Int} (h : f.IsScale q e) (h' : f.IsScale q' e')
    (hq : q ≤ q') : e ≤ e' := by
  by_contra hlt
  rw [Int.not_le] at hlt
  rcases h.le with he | hle
  · exact absurd h'.least_le (by omega)
  · have hpow : (2 : ℚ) ^ (e' + f.fractionBits + 1) ≤ 2 ^ (e + f.fractionBits) :=
      zpow_le_zpow_right₀ (by norm_num) (by omega)
    exact absurd (h'.lt.trans_le (hpow.trans (hle.trans hq))) (lt_irrefl _)

/-- A ratio has one exponent. -/
theorem IsScale.unique {q : ℚ} {e e' : Int} (h : f.IsScale q e) (h' : f.IsScale q e') : e = e' :=
  le_antisymm (h.le_of_le h' le_rfl) (h'.le_of_le h le_rfl)

/-- A power as a ratio of whole ones. -/
theorem zpow_eq_div {a : ℚ} (e : Int) : a ^ e = a ^ e.toNat / a ^ (-e).toNat := by
  rcases le_total 0 e with h | h
  · rw [show (-e).toNat = 0 by omega, pow_zero, div_one, ← zpow_natCast, Int.toNat_of_nonneg h]
  · rw [show e.toNat = 0 by omega, pow_zero, one_div, ← zpow_natCast, ← zpow_neg,
      Int.toNat_of_nonneg (by omega), neg_neg]

/-- Whether a power of two is below a ratio, in whole numbers. -/
theorem two_zpow_le_div_iff {num den : Nat} (hd : 0 < den) (e : Int) :
    (2 : ℚ) ^ e ≤ num / den ↔ den * 2 ^ e.toNat ≤ num * 2 ^ (-e).toNat := by
  have hd' : (0 : ℚ) < den := by exact_mod_cast hd
  rw [zpow_eq_div, div_le_div_iff₀ (by positivity) hd', mul_comm]
  exact_mod_cast Iff.rfl

theorem isScale_scale {num den : Nat} (hn : 0 < num) (hd : 0 < den) :
    f.IsScale (num / den) (f.scale num den) := by
  have hd' : (0 : ℚ) < den := by exact_mod_cast hd
  have hnum : (2 : ℚ) ^ (num.log2 : Int) ≤ num ∧ (num : ℚ) < 2 ^ (num.log2 + 1 : Int) :=
    ⟨by exact_mod_cast Nat.log2_self_le hn.ne', by exact_mod_cast Nat.lt_log2_self⟩
  have hden : (2 : ℚ) ^ (den.log2 : Int) ≤ den ∧ (den : ℚ) < 2 ^ (den.log2 + 1 : Int) :=
    ⟨by exact_mod_cast Nat.log2_self_le hd.ne', by exact_mod_cast Nat.lt_log2_self⟩
  obtain ⟨rough, hrough⟩ : ∃ rough : Int, rough = num.log2 - den.log2 := ⟨_, rfl⟩
  have hupper : (num : ℚ) / den < 2 ^ (rough + 1) := by
    rw [div_lt_iff₀ hd']
    calc (num : ℚ) < 2 ^ (num.log2 + 1 : Int) := hnum.2
      _ = 2 ^ (rough + 1) * 2 ^ (den.log2 : Int) := by
        rw [← zpow_add₀ two_ne_zero]
        congr 1
        omega
      _ ≤ 2 ^ (rough + 1) * den := by gcongr; exact hden.1
  have hlower : (2 : ℚ) ^ (rough - 1) ≤ num / den := by
    rw [le_div_iff₀ hd']
    calc (2 : ℚ) ^ (rough - 1) * den ≤ 2 ^ (rough - 1) * 2 ^ (den.log2 + 1 : Int) := by
          gcongr
          exact hden.2.le
      _ = 2 ^ (num.log2 : Int) := by
        rw [← zpow_add₀ two_ne_zero]
        congr 1
        omega
      _ ≤ num := hnum.1
  obtain ⟨low, hlow, hle, hlt⟩ : ∃ low : Int,
      f.scale num den = max f.leastExponent (low - f.fractionBits) ∧
        (2 : ℚ) ^ low ≤ num / den ∧ (num : ℚ) / den < 2 ^ (low + 1) := by
    by_cases h : (2 : ℚ) ^ rough ≤ num / den
    · refine ⟨rough, ?_, h, hupper⟩
      rw [scale, ← hrough, if_pos ((two_zpow_le_div_iff hd rough).1 h)]
    · refine ⟨rough - 1, ?_, hlower, by simpa using h⟩
      rw [scale, ← hrough, if_neg fun hc => h ((two_zpow_le_div_iff hd rough).2 hc)]
  rw [hlow]
  refine ⟨le_max_left _ _, hlt.trans_le (zpow_le_zpow_right₀ (by norm_num) (by omega)), ?_⟩
  rcases max_choice f.leastExponent (low - f.fractionBits) with h | h
  · exact Or.inl h
  · exact Or.inr (by rwa [h, Int.sub_add_cancel])

/-! ## Magnitudes -/

theorem round_zero (den : Nat) : f.round 0 den = 0 := if_pos rfl

theorem round_of_pos {num den : Nat} (hn : 0 < num) {e : Int} (he : f.scale num den = e) :
    f.round num den = min ((e - f.leastExponent).toNat * 2 ^ f.fractionBits +
      nearest (num * 2 ^ (-e).toNat) (den * 2 ^ e.toNat)) f.infinity := by
  rw [round, if_neg hn.ne', he]

section Significand

variable {num den m : Nat} {e : Int}

theorem le_significand (hd : 0 < den) (h : (m : ℚ) * 2 ^ e ≤ num / den) :
    m ≤ nearest (num * 2 ^ (-e).toNat) (den * 2 ^ e.toNat) := by
  rw [zpow_eq_div, mul_div_assoc', div_le_div_iff₀ (by positivity) (by exact_mod_cast hd)] at h
  have h : m * 2 ^ e.toNat * den ≤ num * 2 ^ (-e).toNat := by exact_mod_cast h
  rw [← nearest_mul_self one_pos m]
  refine nearest_le_nearest one_pos (by positivity) ?_
  calc m * 1 * (den * 2 ^ e.toNat) = m * 2 ^ e.toNat * den := by ring
    _ ≤ num * 2 ^ (-e).toNat * 1 := by rwa [mul_one]

theorem significand_le (hd : 0 < den) (h : (num : ℚ) / den ≤ m * 2 ^ e) :
    nearest (num * 2 ^ (-e).toNat) (den * 2 ^ e.toNat) ≤ m := by
  rw [zpow_eq_div, mul_div_assoc', div_le_div_iff₀ (by exact_mod_cast hd) (by positivity)] at h
  have h : num * 2 ^ (-e).toNat ≤ m * 2 ^ e.toNat * den := by exact_mod_cast h
  conv_rhs => rw [← nearest_mul_self one_pos m]
  refine nearest_le_nearest (by positivity) one_pos ?_
  calc num * 2 ^ (-e).toNat * 1 ≤ m * 2 ^ e.toNat * den := by rwa [mul_one]
    _ = m * 1 * (den * 2 ^ e.toNat) := by ring

end Significand

/-- **A greater ratio is not rounded to a lesser magnitude.** -/
theorem round_le_round {a b c d : Nat} (hb : 0 < b) (hd : 0 < d) (hq : (a : ℚ) / b ≤ c / d) :
    f.round a b ≤ f.round c d := by
  have h : a * d ≤ c * b := by
    rw [div_le_div_iff₀ (by exact_mod_cast hb) (by exact_mod_cast hd)] at hq
    exact_mod_cast hq
  rcases Nat.eq_zero_or_pos a with rfl | ha
  · rw [round_zero]
    exact Nat.zero_le _
  have hc : 0 < c := Nat.pos_of_mul_pos_right (lt_of_lt_of_le (Nat.mul_pos ha hd) h)
  have hs := isScale_scale (f := f) ha hb
  have hs' := isScale_scale (f := f) hc hd
  have hle := hs.le_of_le hs' hq
  rw [round_of_pos ha rfl, round_of_pos hc rfl]
  generalize f.scale a b = e at hs hle ⊢
  generalize f.scale c d = e' at hs' hle ⊢
  refine min_le_min_right _ ?_
  rcases hle.lt_or_eq with hlt | rfl
  · have hlow : 2 ^ f.fractionBits ≤ nearest (c * 2 ^ (-e').toNat) (d * 2 ^ e'.toNat) := by
      refine le_significand hd ?_
      rcases hs'.le with he | he
      · exact absurd hs.least_le (by omega)
      · rw [add_comm, zpow_add₀ two_ne_zero, zpow_natCast] at he
        exact_mod_cast he
    have hhigh : nearest (a * 2 ^ (-e).toNat) (b * 2 ^ e.toNat) ≤ 2 ^ (f.fractionBits + 1) := by
      refine significand_le hb ?_
      have he := hs.lt.le
      rw [add_assoc, add_comm, zpow_add₀ two_ne_zero] at he
      exact_mod_cast he
    have hsteps : (e - f.leastExponent).toNat + 1 ≤ (e' - f.leastExponent).toNat := by
      have := hs.least_le
      omega
    calc (e - f.leastExponent).toNat * 2 ^ f.fractionBits +
          nearest (a * 2 ^ (-e).toNat) (b * 2 ^ e.toNat)
        ≤ (e - f.leastExponent).toNat * 2 ^ f.fractionBits + 2 ^ (f.fractionBits + 1) := by gcongr
      _ = ((e - f.leastExponent).toNat + 1) * 2 ^ f.fractionBits + 2 ^ f.fractionBits := by ring
      _ ≤ (e' - f.leastExponent).toNat * 2 ^ f.fractionBits +
          nearest (c * 2 ^ (-e').toNat) (d * 2 ^ e'.toNat) := by gcongr
  · refine Nat.add_le_add_left (nearest_le_nearest (by positivity) (by positivity) ?_) _
    calc a * 2 ^ (-e).toNat * (d * 2 ^ e.toNat) = a * d * (2 ^ (-e).toNat * 2 ^ e.toNat) := by ring
      _ ≤ c * b * (2 ^ (-e).toNat * 2 ^ e.toNat) := Nat.mul_le_mul_right _ h
      _ = c * 2 ^ (-e).toNat * (b * 2 ^ e.toNat) := by ring

/-! ## Finite magnitudes -/

theorem significand_lt (f : Format) (n : Nat) : f.significand n < 2 ^ (f.fractionBits + 1) := by
  have := Nat.mod_lt n (show 0 < 2 ^ f.fractionBits by positivity)
  unfold significand
  rw [pow_succ]
  split <;> omega

/-- The significand and the exponent of a magnitude make up its number. -/
theorem significand_add (f : Format) (n : Nat) :
    (f.exponent n - f.leastExponent).toNat * 2 ^ f.fractionBits + f.significand n = n := by
  have hexp : (f.exponent n - f.leastExponent).toNat = n / 2 ^ f.fractionBits - 1 := by
    unfold exponent
    omega
  rw [hexp]
  unfold significand
  split
  · next h => rw [Nat.div_eq_of_lt h, Nat.zero_sub, Nat.zero_mul, Nat.zero_add]
  · next h =>
    have hpos : 1 ≤ n / 2 ^ f.fractionBits :=
      (Nat.one_le_div_iff (by positivity)).2 (Nat.le_of_not_lt h)
    have hdiv := Nat.div_add_mod n (2 ^ f.fractionBits)
    rw [Nat.mul_comm] at hdiv
    calc (n / 2 ^ f.fractionBits - 1) * 2 ^ f.fractionBits +
          (2 ^ f.fractionBits + n % 2 ^ f.fractionBits)
        = (n / 2 ^ f.fractionBits - 1 + 1) * 2 ^ f.fractionBits + n % 2 ^ f.fractionBits := by ring
      _ = n := by rw [Nat.sub_add_cancel hpos, hdiv]

theorem significand_pos {n : Nat} (h : 0 < n) : 0 < f.significand n := by
  unfold significand
  split
  · exact h
  · positivity

/-- The number that a finite magnitude stands for. -/
def value (f : Format) (n : Nat) : ℚ := f.significand n * 2 ^ f.exponent n

/-- The exponent of a magnitude is that at which its value is rounded. -/
theorem isScale_exponent (f : Format) (n : Nat) : f.IsScale (f.value n) (f.exponent n) := by
  unfold value
  refine ⟨by unfold exponent; omega, ?_, ?_⟩
  · rw [add_assoc, add_comm, zpow_add₀ two_ne_zero]
    have : (f.significand n : ℚ) < 2 ^ (f.fractionBits + 1 : Int) := by
      exact_mod_cast f.significand_lt n
    gcongr
  · by_cases h : n < 2 ^ f.fractionBits
    · left
      rw [exponent, Nat.div_eq_of_lt h]
      simp
    · right
      rw [add_comm, zpow_add₀ two_ne_zero]
      have : (2 : ℚ) ^ (f.fractionBits : Int) ≤ f.significand n := by
        rw [significand, if_neg h]
        push_cast
        simp
      gcongr

/-- **The value of a finite magnitude is rounded to the magnitude.** -/
theorem round_value {n num den : Nat} (hn : n < f.infinity) (hd : 0 < den)
    (h : (num : ℚ) / den = f.value n) : f.round num den = n := by
  have hd' : (0 : ℚ) < den := by exact_mod_cast hd
  rcases Nat.eq_zero_or_pos num with rfl | hnum
  · rw [round_zero]
    by_contra hne
    have hpos : (0 : ℚ) < f.significand n := by
      exact_mod_cast significand_pos (Nat.pos_of_ne_zero fun h0 => hne h0.symm)
    rw [Nat.cast_zero, zero_div, value] at h
    exact absurd h (by positivity)
  · have hscale : f.scale num den = f.exponent n :=
      (isScale_scale hnum hd).unique (h ▸ f.isScale_exponent n)
    rw [round_of_pos hnum hscale, le_antisymm (significand_le hd h.le) (le_significand hd h.ge),
      significand_add, min_eq_left hn.le]

/-- The value of a magnitude as a ratio of whole numbers. -/
theorem value_eq_div (f : Format) (n : Nat) :
    f.value n = (f.significand n * 2 ^ (f.exponent n).toNat : Nat) /
      (2 ^ (-f.exponent n).toNat : Nat) := by
  rw [value, zpow_eq_div]
  push_cast
  ring

/-! ## Rounded numbers -/

/-- The number of the magnitude nearest to a number that is not negative. -/
def magnitude (f : Format) (q : ℚ) : Nat := f.round q.num.natAbs q.den

theorem magnitude_le_infinity (f : Format) (q : ℚ) : f.magnitude q ≤ f.infinity :=
  f.round_le_infinity _ _

theorem magnitude_zero (f : Format) : f.magnitude 0 = 0 := round_zero _

theorem natAbs_num_div_den {q : ℚ} (h : 0 ≤ q) : (q.num.natAbs : ℚ) / q.den = q := by
  have hnum : ((q.num.natAbs : Int) : ℚ) = q.num := by
    rw [Int.natAbs_of_nonneg (Rat.num_nonneg.2 h)]
  rw [← Int.cast_natCast, hnum, Rat.num_div_den]

/-- Rounding depends on the ratio alone. -/
theorem magnitude_div {num den : Nat} (h : 0 < den) : f.magnitude (num / den) = f.round num den :=
  have hq := natAbs_num_div_den (q := num / den) (by positivity)
  le_antisymm (round_le_round (Rat.pos _) h hq.le) (round_le_round h (Rat.pos _) hq.ge)

/-- **A greater number is not rounded to a lesser magnitude.** -/
theorem magnitude_le_magnitude {p q : ℚ} (hp : 0 ≤ p) (h : p ≤ q) :
    f.magnitude p ≤ f.magnitude q := by
  refine round_le_round (Rat.pos p) (Rat.pos q) ?_
  rwa [natAbs_num_div_den hp, natAbs_num_div_den (hp.trans h)]

theorem value_nonneg (f : Format) (n : Nat) : 0 ≤ f.value n := by
  unfold value
  positivity

/-- The value of a finite magnitude is rounded to the magnitude. -/
theorem magnitude_value {n : Nat} (h : n < f.infinity) : f.magnitude (f.value n) = n :=
  round_value h (Rat.pos _) (natAbs_num_div_den (f.value_nonneg n))

/-- The order of finite magnitudes is that of their values. -/
theorem value_le_value {m n : Nat} (hm : m < f.infinity) (hn : n < f.infinity) (h : m ≤ n) :
    f.value m ≤ f.value n := by
  by_contra hlt
  rw [not_le] at hlt
  have hround := magnitude_le_magnitude (f := f) (f.value_nonneg n) hlt.le
  rw [magnitude_value hm, magnitude_value hn] at hround
  rw [le_antisymm h hround] at hlt
  exact lt_irrefl _ hlt

end FlatGraph.Number.Format
