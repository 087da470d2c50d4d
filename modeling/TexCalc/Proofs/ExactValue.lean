import Mathlib
import TexCalc.Proofs.Nearest

/-!
# Rounding exact values

A finite double has an exact value, which is rational. What the whole number nearest to a quotient
gives, multiplied by a step, is the multiple of the step nearest to the exact value, the even one of
two equally near (`rounds_roundDiv`), on either side of zero (`Rounds.neg`); and it is off by at
most half a step (`Rounds.le_half`).
-/

namespace TexCalc

/-- `Rounds step q r`: of the multiples of `step` the nearest to `q` is `r`, and of two equally near
the even one. -/
def Rounds (step q r : ℚ) : Prop :=
  ∃ n : ℤ, r = n * step ∧ ∀ m : ℤ, |q - r| ≤ |q - m * step|
    ∧ (|q - m * step| = |q - r| → m = n ∨ Even n)

section Rounds

variable {step q r r' v : ℚ} {num den : ℕ}

theorem abs_sub_roundDiv_le (num : ℕ) (hden : 0 < den) :
    |(num : ℚ) / den - roundDiv num den| ≤ 1 / 2 := by
  have hpos : (0 : ℚ) < den := by exact_mod_cast hden
  have hbelow : 2 * ((roundDiv num den : ℚ) * den) ≤ 2 * num + den := by
    exact_mod_cast roundDiv_mul_le num hden
  have habove : 2 * (num : ℚ) ≤ 2 * ((roundDiv num den : ℚ) * den) + den := by
    exact_mod_cast le_roundDiv_mul num hden
  have hsplit : (num : ℚ) / den - roundDiv num den
      = (num - roundDiv num den * den) / den := by field_simp
  rw [hsplit, abs_le]
  constructor
  · rw [le_div_iff₀ hpos]
    linarith
  · rw [div_le_iff₀ hpos]
    linarith

theorem le_roundDiv {n : ℕ} (hden : 0 < den) (h : (n : ℚ) ≤ (num : ℚ) / den) :
    n ≤ roundDiv num den := by
  have hhalf := (abs_le.1 (abs_sub_roundDiv_le num hden)).2
  have hlt : (n : ℚ) < (roundDiv num den + 1 : ℕ) := by
    push_cast
    linarith
  exact Nat.lt_succ_iff.1 (Nat.cast_lt.1 hlt)

theorem roundDiv_le {n : ℕ} (hden : 0 < den) (h : (num : ℚ) / den ≤ n) :
    roundDiv num den ≤ n := by
  have hhalf := (abs_le.1 (abs_sub_roundDiv_le num hden)).1
  have hlt : (roundDiv num den : ℚ) < (n + 1 : ℕ) := by
    push_cast
    linarith
  exact Nat.lt_succ_iff.1 (Nat.cast_lt.1 hlt)

/-- A quotient halfway between two whole numbers goes to the even one. -/
theorem even_roundDiv (hden : 0 < den)
    (h : |(num : ℚ) / den - roundDiv num den| = 1 / 2) : Even (roundDiv num den) := by
  have hpos : (0 : ℚ) < den := by exact_mod_cast hden
  refine Nat.even_iff.2 (roundDiv_even ?_)
  have hdiv := Nat.div_add_mod num den
  have hmod := Nat.mod_lt num hden
  have hround : roundDiv num den = num / den ∨ roundDiv num den = num / den + 1 := by
    unfold roundDiv
    dsimp only
    split
    · exact .inl rfl
    · exact .inr rfl
  generalize num / den = low at *
  generalize num % den = rest at *
  have hnum : (num : ℚ) / den = low + rest / den := by
    rw [← hdiv]
    push_cast
    field_simp
  have hrest : (0 : ℚ) ≤ rest / den ∧ (rest : ℚ) / den < 1 := by
    refine ⟨by positivity, ?_⟩
    rw [div_lt_one hpos]
    exact_mod_cast hmod
  have hhalf : (rest : ℚ) / den = 1 / 2 := by
    rw [hnum] at h
    rcases hround with hr | hr <;> rw [hr] at h
    · rw [add_sub_cancel_left, abs_of_nonneg hrest.1] at h
      exact h
    · push_cast at h
      rw [abs_of_neg (by linarith [hrest.2])] at h
      linarith
  rw [div_eq_iff hpos.ne'] at hhalf
  have : 2 * (rest : ℚ) = den := by linarith
  exact_mod_cast this

/-- No whole number is nearer than one at a distance of at most a half. -/
theorem rounds_of_half {n : ℤ} (hstep : 0 < step) (half : |v - n| ≤ 1 / 2)
    (tie : |v - n| = 1 / 2 → Even n) : Rounds step (v * step) (n * step) := by
  have hscale : ∀ m : ℤ, |v * step - m * step| = |v - m| * step := by
    intro m
    rw [← sub_mul, abs_mul, abs_of_pos hstep]
  refine ⟨n, rfl, fun m => ?_⟩
  rw [hscale, hscale]
  by_cases hm : m = n
  · subst hm
    exact ⟨le_rfl, fun _ => .inl rfl⟩
  · have hfar : (1 : ℚ) ≤ |(n : ℚ) - m| := by
      rw [← Int.cast_sub, ← Int.cast_abs]
      exact_mod_cast Int.one_le_abs (sub_ne_zero.2 (Ne.symm hm))
    have htriangle : |(n : ℚ) - m| ≤ |v - m| + |v - n| := by
      rw [abs_sub_comm v n, add_comm]
      exact abs_sub_le (n : ℚ) v m
    refine ⟨mul_le_mul_of_nonneg_right (by linarith) hstep.le, fun h => .inr (tie ?_)⟩
    have heq := mul_right_cancel₀ hstep.ne' h
    linarith

theorem rounds_roundDiv (num : ℕ) (hden : 0 < den) (hstep : 0 < step) :
    Rounds step ((num : ℚ) / den * step) (roundDiv num den * step) := by
  have hrounds := rounds_of_half (n := (roundDiv num den : ℤ)) hstep
    (by exact_mod_cast abs_sub_roundDiv_le num hden)
    (fun h => by exact_mod_cast even_roundDiv hden (by exact_mod_cast h))
  exact_mod_cast hrounds

theorem Rounds.neg (h : Rounds step q r) : Rounds step (-q) (-r) := by
  obtain ⟨n, rfl, hnear⟩ := h
  have hflip : ∀ m : ℤ, |-q - m * step| = |q - (-m : ℤ) * step| := by
    intro m
    rw [← abs_neg]
    push_cast
    ring_nf
  refine ⟨-n, by push_cast; ring, fun m => ?_⟩
  have hself : |-q - -(n * step)| = |q - n * step| := by
    rw [← abs_neg]
    ring_nf
  rw [hself, hflip]
  refine ⟨(hnear (-m)).1, fun h => ?_⟩
  rw [even_neg, neg_eq_iff_eq_neg.symm]
  exact (hnear (-m)).2 h

theorem Rounds.le_half (h : Rounds step q r) (hstep : 0 < step) : |q - r| ≤ step / 2 := by
  obtain ⟨n, -, hnear⟩ := h
  have hscale : q - round (q / step) * step = (q / step - round (q / step)) * step := by
    field_simp
  calc |q - r|
    _ ≤ |q - round (q / step) * step| := (hnear _).1
    _ = |q / step - round (q / step)| * step := by rw [hscale, abs_mul, abs_of_pos hstep]
    _ ≤ 1 / 2 * step := mul_le_mul_of_nonneg_right (abs_sub_round _) hstep.le
    _ = step / 2 := by ring

/-- Of two multiples next to each other one is odd, so both are the nearest in no case. -/
theorem Rounds.unique (hstep : 0 < step) (h : Rounds step q r) (h' : Rounds step q r') :
    r = r' := by
  have hclose := h.le_half hstep
  have hclose' := h'.le_half hstep
  obtain ⟨n, rfl, hnear⟩ := h
  obtain ⟨n', rfl, hnear'⟩ := h'
  have heq : |q - n * step| = |q - n' * step| := le_antisymm (hnear n').1 (hnear' n).1
  rcases (hnear n').2 heq.symm with rfl | heven
  · rfl
  rcases (hnear' n).2 heq with rfl | heven'
  · rfl
  have hapart : |(n : ℚ) - n'| * step ≤ 1 * step := by
    have htriangle := abs_sub_le ((n : ℚ) * step) q (n' * step)
    rw [← sub_mul, abs_mul, abs_of_pos hstep, abs_sub_comm _ q] at htriangle
    linarith
  have hle : |n - n'| ≤ 1 := by
    have := le_of_mul_le_mul_right hapart hstep
    exact_mod_cast this
  obtain ⟨i, rfl⟩ := heven
  obtain ⟨j, rfl⟩ := heven'
  have : i = j := by
    have := abs_le.1 hle
    omega
  rw [this]

end Rounds

namespace Double

/-- The value of so many units, with a sign. -/
def value (negative : Bool) (units : ℕ) : ℚ :=
  if negative then -(units / one) else units / one

/-- The exact value of a double, if it is finite. -/
def value? (x : Float) : Option ℚ :=
  match ofFloat x with
  | .finite negative units => some (value negative units)
  | _ => none

variable {x : Float} {q : ℚ} {negative : Bool} {units : ℕ}

theorem value?_eq_some_iff : value? x = some q ↔ ∃ negative units,
    ofFloat x = .finite negative units ∧ value negative units = q := by
  unfold value?
  constructor
  · intro h
    split at h
    · next negative units hx => exact ⟨negative, units, hx, Option.some.inj h⟩
    · cases h
  · rintro ⟨negative, units, hx, rfl⟩
    rw [hx]

theorem one_cast_pos : (0 : ℚ) < one := by
  exact_mod_cast one_pos

theorem abs_value (negative : Bool) (units : ℕ) : |value negative units| = (units : ℚ) / one := by
  have hnonneg : (0 : ℚ) ≤ (units : ℚ) / one := div_nonneg (Nat.cast_nonneg _) one_cast_pos.le
  cases negative
  · exact abs_of_nonneg hnonneg
  · exact (abs_neg _).trans (abs_of_nonneg hnonneg)

theorem value_eq_zero_iff : value negative units = 0 ↔ units = 0 := by
  rw [← abs_eq_zero, abs_value, div_eq_zero_iff, or_iff_left one_cast_pos.ne', Nat.cast_eq_zero]

theorem value?_zero : value? 0 = some 0 :=
  value?_eq_some_iff.2 ⟨false, 0, by decide +kernel, value_eq_zero_iff.2 rfl⟩

theorem exists_bits (h : value? x = some q) : ∃ negative b, b < infinityBits
    ∧ ofSignBits negative b = x ∧ value negative (magnitude b) = q := by
  obtain ⟨negative, units, hx, rfl⟩ := value?_eq_some_iff.1 h
  obtain ⟨b, hb, rfl, hbits⟩ := exists_of_finite hx
  exact ⟨negative, b, hb, hbits, rfl⟩

theorem value?_ofSignBits {b : ℕ} (negative : Bool) (h : b < infinityBits) :
    value? (ofSignBits negative b) = some (value negative (magnitude b)) := by
  refine value?_eq_some_iff.2 ⟨_, _, ?_, rfl⟩
  rw [ofFloat_ofSignBits h.le, if_neg h.ne]

end Double

/-- The sign stays as it is. -/
theorem Rounds.value {step magnitude : ℚ} {units : ℕ}
    (h : Rounds step ((units : ℚ) / Double.one) magnitude) (negative : Bool) :
    Rounds step (Double.value negative units) (if negative then -magnitude else magnitude) := by
  cases negative
  · exact h
  · exact h.neg

end TexCalc
