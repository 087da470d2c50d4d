import Mathlib
import TexCalc.Proofs.ExactValue

/-!
# The spacing of doubles

The magnitude of a double is a significand of 53 bits at most times a power of two, and the leading
bit is set unless the power is one unit (`exists_significand`). So the doubles from some magnitude
on have a power of two in common (`two_pow_dvd_magnitude`), and a double is apart from the ones
above it by more than a `2 ^ 53`th of itself (`magnitude_lt_mul_sub`).
-/

namespace TexCalc.Double

section Magnitude

variable {b b' k s : ℕ}

/-- The bits of a magnitude are made of its power of two and its significand. A significand that is
rounded up to `2 ^ 53` is the least one of the next power. -/
theorem magnitude_significand (hs : s ≤ 2 ^ 53) (hk : k = 0 ∨ 2 ^ 52 ≤ s) :
    magnitude (k * 2 ^ 52 + s) = s * 2 ^ k := by
  simp only [magnitude, Nat.pow_eq]
  rcases lt_or_ge s (2 ^ 52) with hlow | hlow
  · obtain rfl : k = 0 := by omega
    rw [if_pos (by omega)]
    omega
  · have hnormal : (k * 2 ^ 52 + s) / 2 ^ 52 ≠ 0 := by omega
    rw [if_neg hnormal]
    rcases lt_or_eq_of_le hs with hlt | rfl
    · rw [show (k * 2 ^ 52 + s) / 2 ^ 52 - 1 = k by omega,
        show 2 ^ 52 + (k * 2 ^ 52 + s) % 2 ^ 52 = s by omega]
    · rw [show (k * 2 ^ 52 + 2 ^ 53) / 2 ^ 52 - 1 = k + 1 by omega,
        show 2 ^ 52 + (k * 2 ^ 52 + 2 ^ 53) % 2 ^ 52 = 2 ^ 52 by omega, pow_succ _ k]
      ring

theorem exists_significand (b : ℕ) :
    ∃ k s, b = k * 2 ^ 52 + s ∧ s < 2 ^ 53 ∧ (k = 0 ∨ 2 ^ 52 ≤ s) := by
  have hdiv := Nat.div_add_mod b (2 ^ 52)
  have hmod := Nat.mod_lt b (Nat.two_pow_pos 52)
  generalize b / 2 ^ 52 = exponent at hdiv
  cases exponent with
  | zero => exact ⟨0, b, by omega, by omega, .inl rfl⟩
  | succ k => exact ⟨k, 2 ^ 52 + b % 2 ^ 52, by omega, by omega, .inr (by omega)⟩

/-- The bits count the magnitudes in increasing order. -/
theorem strictMono_magnitude : StrictMono magnitude := by
  refine strictMono_nat_of_lt_succ fun b => ?_
  obtain ⟨k, s, rfl, hs, hk⟩ := exists_significand b
  rw [Nat.add_assoc, magnitude_significand hs.le hk, magnitude_significand hs (by omega)]
  exact Nat.mul_lt_mul_of_pos_right (Nat.lt_succ_self s) (Nat.two_pow_pos k)

theorem two_pow_dvd_magnitude (h : 2 ^ 52 * 2 ^ k ≤ magnitude b) : 2 ^ k ∣ magnitude b := by
  obtain ⟨j, s, rfl, hs, hj⟩ := exists_significand b
  rw [magnitude_significand hs.le hj] at h ⊢
  have hpow : 2 ^ k < 2 ^ (j + 1) := by
    refine Nat.lt_of_mul_lt_mul_left (a := 2 ^ 52) (h.trans_lt ?_)
    calc s * 2 ^ j < 2 ^ 53 * 2 ^ j := Nat.mul_lt_mul_of_pos_right hs (Nat.two_pow_pos j)
      _ = 2 ^ 52 * 2 ^ (j + 1) := by rw [pow_succ _ j]; ring
  have hkj : k ≤ j := Nat.lt_succ_iff.1 ((Nat.pow_lt_pow_iff_right (by decide)).1 hpow)
  exact (Nat.pow_dvd_pow 2 hkj).mul_left s

/-- A power of two that both magnitudes are multiples of, and that one of them has less than
`2 ^ 53` times, stands between them. -/
theorem magnitude_lt_mul_sub (h : magnitude b < magnitude b') :
    magnitude b < 2 ^ 53 * (magnitude b' - magnitude b) := by
  obtain ⟨j, s, rfl, hs, hj⟩ := exists_significand b
  obtain ⟨j', s', rfl, hs', hj'⟩ := exists_significand b'
  rw [magnitude_significand hs.le hj, magnitude_significand hs'.le hj'] at h ⊢
  have hfar : 2 ^ min j j' ≤ s' * 2 ^ j' - s * 2 ^ j := by
    refine Nat.le_of_dvd (Nat.sub_pos_of_lt h) (Nat.dvd_sub ?_ ?_)
    · exact (Nat.pow_dvd_pow 2 (min_le_right j j')).mul_left s'
    · exact (Nat.pow_dvd_pow 2 (min_le_left j j')).mul_left s
  have hbelow : s * 2 ^ j < 2 ^ 53 * 2 ^ min j j' := by
    rcases le_total j j' with hle | hle
    · rw [min_eq_left hle]
      exact Nat.mul_lt_mul_of_pos_right hs (Nat.two_pow_pos j)
    · rw [min_eq_right hle]
      exact h.trans (Nat.mul_lt_mul_of_pos_right hs' (Nat.two_pow_pos j'))
  exact hbelow.trans_le (Nat.mul_le_mul_left _ hfar)

end Magnitude

section Value

variable {x y : Float} {q p : ℚ}

theorem exists_eq_mul (h : value? x = some q) {k : ℕ} (hlarge : 2 ^ 52 * (2 ^ k / one) ≤ |q|) :
    ∃ n : ℤ, q = n * (2 ^ k / one) := by
  obtain ⟨negative, b, -, -, rfl⟩ := exists_bits h
  rw [abs_value, mul_div_assoc', div_le_div_iff_of_pos_right one_cast_pos] at hlarge
  obtain ⟨m, hm⟩ := two_pow_dvd_magnitude (b := b) (k := k) (by exact_mod_cast hlarge)
  have habs : |value negative (magnitude b)| = m * (2 ^ k / one) := by
    rw [abs_value, hm, Nat.cast_mul, Nat.cast_pow, mul_comm, mul_div_assoc]
    rfl
  rcases eq_or_eq_neg_of_abs_eq habs with hvalue | hvalue
  · exact ⟨m, hvalue⟩
  · exact ⟨-m, by rw [hvalue, Int.cast_neg, neg_mul]; rfl⟩

theorem exists_eq_div_two_pow (h : value? x = some q) (hlarge : 1 / 16 ≤ |q|) :
    ∃ n : ℤ, q = n / 2 ^ 56 := by
  obtain ⟨k, hk⟩ : ∃ k, k + 56 = 1074 := ⟨1018, rfl⟩
  have hunit : (2 : ℚ) ^ k / one = 1 / 2 ^ 56 := by
    unfold one
    rw [← hk, Nat.pow_eq, pow_add, Nat.cast_mul, Nat.cast_pow, Nat.cast_pow, Nat.cast_ofNat]
    field_simp
  obtain ⟨n, hn⟩ := exists_eq_mul h (k := k) (by rw [hunit]; linarith)
  exact ⟨n, by rw [hn, hunit, mul_one_div]⟩

theorem abs_lt_mul_sub (hx : value? x = some q) (hy : value? y = some p) (h : |q| < |p|) :
    |q| < 2 ^ 53 * (|p| - |q|) := by
  obtain ⟨negative, b, -, -, rfl⟩ := exists_bits hx
  obtain ⟨negative', b', -, -, rfl⟩ := exists_bits hy
  rw [abs_value, abs_value] at h ⊢
  rw [div_lt_div_iff_of_pos_right one_cast_pos, Nat.cast_lt] at h
  rw [← sub_div, mul_div_assoc', div_lt_div_iff_of_pos_right one_cast_pos, ← Nat.cast_sub h.le]
  exact_mod_cast magnitude_lt_mul_sub h

end Value

end TexCalc.Double
