/-!
# Floating-point numbers

A binary interchange format (`Format`) has finitely many magnitudes. They are numbered upwards
from zero, and the number of a magnitude is also its bit pattern, so that the order of magnitudes
is the order of their numbers and the number after the greatest finite one is that of infinity. A
value (`Floating`) is a sign and the number of a magnitude, or no number at all.

`Format.round` takes a ratio to the nearest magnitude, of two equally near ones to the even one.
Everything that computes with floating-point numbers computes exactly and rounds once.
-/

namespace FlatGraph.Number

-- Powers are those of `Nat.pow` and `Int.pow`.
attribute [local instance (2000)] instPowNat

/-- A binary interchange format. -/
structure Format where
  /-- Bits of the significand that are stored. -/
  fractionBits : Nat
  exponentBits : Nat
deriving DecidableEq, Repr

/-- Double precision. -/
abbrev binary64 : Format := ⟨52, 11⟩

/-- Single precision. -/
abbrev binary32 : Format := ⟨23, 8⟩

namespace Format

/-- Every finite magnitude is a whole multiple of two to this exponent. -/
def leastExponent (f : Format) : Int := 2 - 2 ^ (f.exponentBits - 1) - f.fractionBits

/-- The number of the infinite magnitude. -/
def infinity (f : Format) : Nat := (2 ^ f.exponentBits - 1) * 2 ^ f.fractionBits

/-- The significand of magnitude `n`. -/
def significand (f : Format) (n : Nat) : Nat :=
  if n < 2 ^ f.fractionBits then n else 2 ^ f.fractionBits + n % 2 ^ f.fractionBits

/-- The exponent of magnitude `n`, which is `significand n * 2 ^ exponent n`. -/
def exponent (f : Format) (n : Nat) : Int := f.leastExponent + (n / 2 ^ f.fractionBits - 1 : Nat)

/-- The whole number nearest to `num / den`, of two the even one. -/
def nearest (num den : Nat) : Nat :=
  let q := num / den
  match compare (2 * (num % den)) den with
  | .lt => q
  | .gt => q + 1
  | .eq => q + q % 2

/-- The exponent at which `num / den` has a significand with all its bits. -/
def scale (f : Format) (num den : Nat) : Int :=
  let rough : Int := num.log2 - den.log2
  let low := if den * 2 ^ rough.toNat ≤ num * 2 ^ (-rough).toNat then rough else rough - 1
  max f.leastExponent (low - f.fractionBits)

/-- The number of the magnitude nearest to `num / den`, of two the even one; infinity beyond the
greatest finite magnitude. -/
def round (f : Format) (num den : Nat) : Nat :=
  if num = 0 then 0
  else
    let e := f.scale num den
    let s := nearest (num * 2 ^ (-e).toNat) (den * 2 ^ e.toNat)
    min ((e - f.leastExponent).toNat * 2 ^ f.fractionBits + s) f.infinity

theorem round_le_infinity (f : Format) (num den : Nat) : f.round num den ≤ f.infinity := by
  unfold round
  split
  · exact Nat.zero_le _
  · exact Nat.min_le_right _ _

end Format

/-- A value of a format. -/
inductive Floating (f : Format) where
  | nan
  /-- The number of the magnitude, with its sign. -/
  | signed (negative : Bool) (magnitude : Fin (f.infinity + 1))
deriving DecidableEq, Repr

namespace Floating

variable {f g : Format}

/-- The value nearest to `± num / den`. -/
def ofRatio (negative : Bool) (num den : Nat) : Floating f :=
  .signed negative ⟨f.round num den, Nat.lt_succ_of_le (f.round_le_infinity num den)⟩

/-- Infinity, with its sign. -/
def infinite (negative : Bool) : Floating f := .signed negative (Fin.last _)

/-- Zero, with its sign. -/
def zero (negative : Bool) : Floating f := .signed negative ⟨0, Nat.succ_pos _⟩

/-- The value nearest to an integer. -/
def ofInt (n : Int) : Floating f := ofRatio (n < 0) n.natAbs 1

/-- Whether the value is a number below infinity in magnitude. -/
def isFinite : Floating f → Bool
  | .nan => false
  | .signed _ m => m.val < f.infinity

/-- The value of another format nearest to this one. -/
def convert : Floating f → Floating g
  | .nan => .nan
  | .signed negative m =>
    if m.val < f.infinity then
      let e := f.exponent m
      ofRatio negative (f.significand m * 2 ^ e.toNat) (2 ^ (-e).toNat)
    else infinite negative

/-- Whether the value is finite and farther from zero than every finite value of `g`. -/
def exceeds (x : Floating f) (g : Format) : Bool :=
  match x, (convert (.signed false ⟨g.infinity - 1, by omega⟩ : Floating g) : Floating f) with
  | .signed _ m, .signed _ greatest => m.val < f.infinity && greatest.val < m.val
  | _, _ => false

/-- Equality of numbers: the zeros are equal, and what is no number equals nothing. -/
def equal : Floating f → Floating f → Bool
  | .signed s m, .signed t n => m == n && (s == t || m.val == 0)
  | _, _ => false

/-- The product of two values. -/
def mul : Floating f → Floating f → Floating f
  | .signed s m, .signed t n =>
    if m.val < f.infinity ∧ n.val < f.infinity then
      let e := f.exponent m + f.exponent n
      ofRatio (s != t) (f.significand m * f.significand n * 2 ^ e.toNat) (2 ^ (-e).toNat)
    else if m.val = 0 ∨ n.val = 0 then .nan
    else infinite (s != t)
  | _, _ => .nan

/-- The quotient of two values. -/
def div : Floating f → Floating f → Floating f
  | .signed s m, .signed t n =>
    if m.val < f.infinity then
      if n.val < f.infinity then
        if n.val = 0 then
          if m.val = 0 then .nan else infinite (s != t)
        else
          let e := f.exponent m - f.exponent n
          ofRatio (s != t) (f.significand m * 2 ^ e.toNat) (f.significand n * 2 ^ (-e).toNat)
      else zero (s != t)
    else if n.val < f.infinity then infinite (s != t)
    else .nan
  | _, _ => .nan

/-- The value with the given bits; every pattern above infinity is no number. -/
def ofBits (f : Format) (bits : Nat) : Floating f :=
  let weight := 2 ^ (f.fractionBits + f.exponentBits)
  if h : bits % weight ≤ f.infinity then
    .signed (bits / weight % 2 == 1) ⟨bits % weight, Nat.lt_succ_of_le h⟩
  else .nan

/-- The bits of a value; what is no number has the pattern of a quiet one without payload. -/
def toBits : Floating f → Nat
  | .nan => f.infinity + 2 ^ (f.fractionBits - 1)
  | .signed negative m => (if negative then 2 ^ (f.fractionBits + f.exponentBits) else 0) + m

end Floating

end FlatGraph.Number
