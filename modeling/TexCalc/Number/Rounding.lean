/-!
# Rounding a quotient

The whole number nearest to a quotient of natural numbers, a half going to the even neighbour, and
the decimal exponent of a quotient, by which its leading digit is found. The main statements say
that rounding is off by at most a half and that a tie ends at an even number.
-/

namespace TexCalc

/-- The whole number nearest to `num / den`; a half goes to the even neighbour. -/
def roundDiv (num den : Nat) : Nat :=
  let low := num / den
  let twice := 2 * (num % den)
  if twice < den ∨ (twice = den ∧ low % 2 = 0) then low else low + 1

theorem roundDiv_mul_le (num : Nat) {den : Nat} (h : 0 < den) :
    2 * (roundDiv num den * den) ≤ 2 * num + den := by
  have hdiv := Nat.div_add_mod num den
  have hmod := Nat.mod_lt num h
  unfold roundDiv
  generalize num / den = q at *
  generalize num % den = r at *
  subst hdiv
  have hcomm : q * den = den * q := Nat.mul_comm _ _
  dsimp only
  split
  · omega
  · rw [Nat.add_mul]; omega

theorem le_roundDiv_mul (num : Nat) {den : Nat} (h : 0 < den) :
    2 * num ≤ 2 * (roundDiv num den * den) + den := by
  have hdiv := Nat.div_add_mod num den
  have hmod := Nat.mod_lt num h
  unfold roundDiv
  generalize num / den = q at *
  generalize num % den = r at *
  subst hdiv
  have hcomm : q * den = den * q := Nat.mul_comm _ _
  dsimp only
  split
  · omega
  · rw [Nat.add_mul]; omega

/-- A quotient halfway between two whole numbers goes to the even one. -/
theorem roundDiv_even {num den : Nat} (h : 2 * (num % den) = den) : roundDiv num den % 2 = 0 := by
  unfold roundDiv
  dsimp only
  split <;> omega

/-- The whole number `k` with `10 ^ k ≤ num / den < 10 ^ (k + 1)`, for `num` and `den` positive. -/
def decimalExponent (num den : Nat) : Int :=
  if den ≤ num then (Nat.toDigits 10 (num / den)).length - 1
  else -(Nat.toDigits 10 ((den - 1) / num)).length

end TexCalc
