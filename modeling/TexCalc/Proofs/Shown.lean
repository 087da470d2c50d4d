import TexCalc.Display
import TexCalc.Proofs.DecimalNotation
import TexCalc.Proofs.ExactValue

/-!
# Results are shown correctly rounded

What is shown of a finite double is fixed by its exact value and the number of decimals (`Shows`):
the value rounded to so many decimals, or a mantissa and an exponent for the value rounded to as
many significant digits and one more. The count of decimals is the rounded quotient
(`rounds_plain`), and the decimal exponent finds the leading digit, with one more for a mantissa
that is rounded up to ten (`roundedMantissa_spec`). The main statement is `result_iff_shows`.
-/

namespace TexCalc

namespace Display

open Double (one value value? one_cast_pos abs_value)

/-- The values that are shown without an exponent: zero, and from the double nearest to `10 ^ -6` on
those below `10 ^ 16`. -/
def InPlainRange (q : ℚ) : Prop :=
  q = 0 ∨ (∃ low ∈ value? 1e-6, low ≤ |q|) ∧ |q| < 10 ^ 16

/-- `Shows digits q t`: the text `t` shows the value `q` with `digits` decimals at most. -/
inductive Shows (digits : ℕ) (q : ℚ) : Text → Prop
  | plain {r : ℚ} {t : Text} (range : InPlainRange q) (rounded : Rounds (1 / 10 ^ digits) q r)
      (text : DecimalText r t) : Shows digits q t
  | scientific {m : ℚ} {e k : ℤ} {mantissa exponent : Text} (range : ¬InPlainRange q)
      (leading : 10 ^ e ≤ |q| ∧ |q| < 10 ^ (e + 1))
      (rounded : Rounds (10 ^ (e - digits)) q (m * 10 ^ k))
      (normal : 1 ≤ |m| ∧ |m| < 10) (places : ∃ n : ℤ, m = n / 10 ^ digits)
      (mantissaText : DecimalText m mantissa) (exponentText : DecimalText k exponent) :
      Shows digits q (mantissa ++ 'e' :: exponent)

section Exponent

theorem length_toDigits {n : ℕ} (hn : 0 < n) :
    ∃ k, (Nat.toDigits 10 n).length = k + 1 ∧ 10 ^ k ≤ n ∧ n < 10 ^ (k + 1) := by
  obtain ⟨k, hk⟩ := Nat.exists_eq_succ_of_ne_zero (Nat.length_toDigits_pos (b := 10) (n := n)).ne'
  refine ⟨k, hk, ?_, (Nat.length_toDigits_le_iff (by decide) (by omega)).1 hk.le⟩
  rcases Nat.eq_zero_or_pos k with rfl | hpos
  · exact hn
  · by_contra hlt
    have := (Nat.length_toDigits_le_iff (by decide) hpos).2 (not_le.1 hlt)
    omega

theorem pow_decimalExponent {num den : ℕ} (hnum : 0 < num) (hden : 0 < den) :
    (10 : ℚ) ^ decimalExponent num den ≤ (num : ℚ) / den
      ∧ (num : ℚ) / den < 10 ^ (decimalExponent num den + 1) := by
  have hnum' : (0 : ℚ) < num := by exact_mod_cast hnum
  have hden' : (0 : ℚ) < den := by exact_mod_cast hden
  unfold decimalExponent
  split
  · next h =>
    obtain ⟨k, hlength, hbelow, habove⟩ := length_toDigits (Nat.div_pos h hden)
    rw [hlength, Nat.cast_add_one, add_sub_cancel_right, le_div_iff₀ hden', div_lt_iff₀ hden',
      ← Nat.cast_add_one, zpow_natCast, zpow_natCast]
    exact ⟨by exact_mod_cast (Nat.le_div_iff_mul_le hden).1 hbelow,
      by exact_mod_cast (Nat.div_lt_iff_lt_mul hden).1 habove⟩
  · next h =>
    obtain ⟨k, hlength, hbelow, habove⟩ :=
      length_toDigits (Nat.div_pos (by omega : num ≤ den - 1) hnum)
    have hbelow' := (Nat.le_div_iff_mul_le hnum).1 hbelow
    have habove' := (Nat.div_lt_iff_lt_mul hnum).1 habove
    rw [hlength, Nat.cast_add_one, neg_add, neg_add_cancel_right, ← neg_add, zpow_neg, zpow_neg,
      ← Nat.cast_add_one, zpow_natCast, zpow_natCast, le_div_iff₀ hden', div_lt_iff₀ hden',
      inv_mul_le_iff₀ (by positivity), ← div_eq_inv_mul, lt_div_iff₀ (by positivity)]
    refine ⟨?_, ?_⟩
    · have : den ≤ 10 ^ (k + 1) * num := by omega
      exact_mod_cast this
    · have : num * 10 ^ k < den := by rw [mul_comm]; omega
      exact_mod_cast this

end Exponent

section Finite

variable {units digits : ℕ} {negative : Bool}

theorem value?_plainFrom : value? 1e-6 = some ((plainFrom : ℚ) / one) := by
  have hfloat : Double.ofFloat 1e-6 = .finite false plainFrom := by decide +kernel
  exact Double.value?_eq_some_iff.2 ⟨false, plainFrom, hfloat, rfl⟩

theorem isPlain_iff (negative : Bool) (units : ℕ) :
    isPlain units = true ↔ InPlainRange (value negative units) := by
  have hbelow : units < plainBelow ↔ (units : ℚ) / one < 10 ^ 16 := by
    rw [div_lt_iff₀ one_cast_pos, plainBelow, Nat.pow_eq, ← Nat.cast_lt (α := ℚ), Nat.cast_mul,
      Nat.cast_pow]
    rfl
  have hfrom : plainFrom ≤ units ↔ ∃ low ∈ value? 1e-6, low ≤ (units : ℚ) / one := by
    simp only [value?_plainFrom, Option.mem_some_iff, exists_eq_left']
    rw [div_le_div_iff_of_pos_right one_cast_pos, Nat.cast_le]
  rw [isPlain, InPlainRange, abs_value, Double.value_eq_zero_iff, ← hbelow, ← hfrom]
  simp

theorem rounds_plain (units digits : ℕ) :
    Rounds (1 / 10 ^ digits) ((units : ℚ) / one) ((roundedCount units digits : ℚ) / 10 ^ digits) := by
  have hrounds := rounds_roundDiv (units * Nat.pow 10 digits) Double.one_pos
    (by positivity : (0 : ℚ) < 1 / 10 ^ digits)
  have hunits : ((units * Nat.pow 10 digits : ℕ) : ℚ) / one * (1 / 10 ^ digits) = units / one := by
    have := one_cast_pos.ne'
    push_cast [Nat.pow_eq]
    field_simp
  rwa [hunits, mul_one_div] at hrounds

theorem pow_toNat_div (k : ℤ) : (10 : ℚ) ^ k.toNat / 10 ^ (-k).toNat = 10 ^ k := by
  obtain ⟨n, rfl | rfl⟩ := k.eq_nat_or_neg <;> simp

theorem scaled_quotient (units unit : ℕ) (k : ℤ) :
    ((units * Nat.pow 10 k.toNat : ℕ) : ℚ) / (unit * Nat.pow 10 (-k).toNat : ℕ)
      = units / unit * 10 ^ k := by
  rw [← pow_toNat_div]
  push_cast [Nat.pow_eq]
  field_simp

/-- Where the leading digit is moved to the last place in front of the point, the rounded number
has so many digits, or is the first one with one more. -/
theorem roundDiv_digits {num den : ℕ} {e : ℤ} {magnitude : ℚ} (hden : 0 < den)
    (hquotient : (num : ℚ) / den = magnitude * 10 ^ ((digits : ℤ) - e))
    (hbelow : 10 ^ e ≤ magnitude) (habove : magnitude < 10 ^ (e + 1)) :
    10 ^ digits ≤ roundDiv num den ∧ roundDiv num den ≤ 10 ^ (digits + 1) := by
  have hpow : ∀ i : ℕ, ((10 ^ (digits + i) : ℕ) : ℚ) = 10 ^ (e + i) * 10 ^ ((digits : ℤ) - e) := by
    intro i
    rw [← zpow_add₀ (by norm_num), Nat.cast_pow, Nat.cast_ofNat, ← zpow_natCast]
    congr 1
    push_cast
    ring
  constructor
  · refine le_roundDiv hden ?_
    have hlow := hpow 0
    rw [Nat.cast_zero, Nat.add_zero, add_zero] at hlow
    rw [hquotient, hlow]
    exact mul_le_mul_of_nonneg_right hbelow (by positivity)
  · refine roundDiv_le hden ?_
    rw [hquotient, hpow 1, Nat.cast_one]
    exact mul_le_mul_of_nonneg_right habove.le (by positivity)

/-- The mantissa and the exponent are those of the rounded value, and the mantissa has one digit in
front of the point. -/
theorem roundedMantissa_spec (hunits : units ≠ 0) {count : ℕ} {k : ℤ}
    (h : roundedMantissa units digits = (count, k)) :
    ∃ e : ℤ, (10 : ℚ) ^ e ≤ (units : ℚ) / one ∧ (units : ℚ) / one < 10 ^ (e + 1)
      ∧ Rounds (10 ^ (e - digits)) ((units : ℚ) / one) ((count : ℚ) / 10 ^ digits * 10 ^ k)
      ∧ 10 ^ digits ≤ count ∧ count < 10 ^ (digits + 1) := by
  have hone := Double.one_pos
  obtain ⟨hbelow, habove⟩ := pow_decimalExponent (Nat.pos_of_ne_zero hunits) hone
  unfold roundedMantissa at h
  dsimp only at h
  generalize decimalExponent units one = e at h hbelow habove
  generalize one = unit at h hone hbelow habove ⊢
  have hquotient := scaled_quotient units unit ((digits : ℤ) - e)
  have hden : 0 < unit * Nat.pow 10 (-((digits : ℤ) - e)).toNat :=
    Nat.mul_pos hone (ten_pow_pos _)
  generalize units * Nat.pow 10 ((digits : ℤ) - e).toNat = num at h hquotient
  generalize unit * Nat.pow 10 (-((digits : ℤ) - e)).toNat = den at h hquotient hden
  obtain ⟨hlow, hhigh⟩ := roundDiv_digits hden hquotient hbelow habove
  have hrounds := rounds_roundDiv num hden
    (by positivity : (0 : ℚ) < 10 ^ (e - digits))
  have hscale : (num : ℚ) / den * 10 ^ (e - digits) = units / unit := by
    rw [hquotient, mul_assoc, ← zpow_add₀ (by norm_num)]
    simp
  rw [hscale] at hrounds
  refine ⟨e, hbelow, habove, ?_⟩
  split at h <;> rename_i hcarry <;> cases h
  · -- the mantissa is rounded up to ten
    refine ⟨?_, le_rfl, Nat.pow_lt_pow_right (by decide) (Nat.lt_succ_self _)⟩
    have hvalue : ((10 ^ digits : ℕ) : ℚ) / 10 ^ digits * 10 ^ (e + 1)
        = roundDiv num den * 10 ^ (e - digits) := by
      rw [hcarry, Nat.pow_eq, Nat.cast_pow, Nat.cast_pow, Nat.cast_ofNat, div_self (by positivity),
        one_mul, ← zpow_natCast, ← zpow_add₀ (by norm_num)]
      congr 1
      push_cast
      ring
    exact hvalue ▸ hrounds
  · refine ⟨?_, hlow, lt_of_le_of_ne hhigh hcarry⟩
    rwa [div_mul_eq_mul_div, mul_div_assoc, ← zpow_natCast, ← zpow_sub₀ (by norm_num)]

/-- The value of a count of decimals, with a sign. -/
def ofCount (negative : Bool) (count digits : ℕ) : ℚ :=
  if negative then -(count / 10 ^ digits) else count / 10 ^ digits

theorem abs_ofCount (negative : Bool) (count digits : ℕ) :
    |ofCount negative count digits| = (count : ℚ) / 10 ^ digits := by
  have hnonneg : (0 : ℚ) ≤ (count : ℚ) / 10 ^ digits := by positivity
  cases negative
  · exact abs_of_nonneg hnonneg
  · exact (abs_neg _).trans (abs_of_nonneg hnonneg)

theorem decimalText_ofCount (negative : Bool) (count digits : ℕ) :
    DecimalText (ofCount negative count digits)
      (finite.sign (negative && count != 0) ++ Decimal.text count digits) := by
  have hsign : (if ofCount negative count digits < 0 then ['-'] else [])
      = finite.sign (negative && count != 0) := by
    have hnonneg : (0 : ℚ) ≤ (count : ℚ) / 10 ^ digits := by positivity
    cases negative
    · exact if_neg hnonneg.not_gt
    · rcases Nat.eq_zero_or_pos count with rfl | hpos
      · simp [ofCount, finite.sign]
      · have : (0 : ℚ) < (count : ℚ) / 10 ^ digits := by positivity
        simp [ofCount, finite.sign, this, hpos.ne']
  rw [← hsign]
  exact decimalText_text (abs_ofCount negative count digits)

theorem shows_finite (negative : Bool) (units digits : ℕ) :
    Shows digits (value negative units) (finite negative units digits) := by
  unfold finite
  split
  · next hplain =>
    have hrounds := (rounds_plain units digits).value negative
    exact .plain ((isPlain_iff negative units).1 hplain) hrounds (decimalText_ofCount _ _ _)
  · next hplain =>
    have range := (isPlain_iff negative units).not.1 hplain
    have hunits : units ≠ 0 := by
      rintro rfl
      exact range (.inl (Double.value_eq_zero_iff.2 rfl))
    rcases hmantissa : roundedMantissa units digits with ⟨count, k⟩
    obtain ⟨e, hbelow, habove, hrounds, hlow, hhigh⟩ := roundedMantissa_spec hunits hmantissa
    have hcount : count ≠ 0 := (lt_of_lt_of_le (Nat.pow_pos (by decide)) hlow).ne'
    have htext := decimalText_ofCount negative count digits
    rw [bne_iff_ne.2 hcount, Bool.and_true] at htext
    refine .scientific range (by rw [abs_value]; exact ⟨hbelow, habove⟩) ?_ ?_ ?_ htext
      (decimalText_ofInt k)
    · have hsigned := hrounds.value negative
      have hmul : ofCount negative count digits * 10 ^ k
          = if negative then -((count : ℚ) / 10 ^ digits * 10 ^ k)
            else (count : ℚ) / 10 ^ digits * 10 ^ k := by
        cases negative
        · rfl
        · exact neg_mul ..
      rwa [hmul]
    · rw [abs_ofCount, le_div_iff₀ (by positivity), div_lt_iff₀ (by positivity), one_mul,
        ← pow_succ']
      exact ⟨by exact_mod_cast hlow, by exact_mod_cast hhigh⟩
    · cases negative
      · exact ⟨count, rfl⟩
      · exact ⟨-count, by rw [ofCount, if_pos rfl]; push_cast; ring⟩

end Finite

section Unique

variable {digits : ℕ} {q : ℚ} {t t' : Text}

theorem zpow_unique {magnitude : ℚ} {e e' : ℤ}
    (h : 10 ^ e ≤ magnitude ∧ magnitude < 10 ^ (e + 1))
    (h' : 10 ^ e' ≤ magnitude ∧ magnitude < 10 ^ (e' + 1)) : e = e' := by
  have hlt := (zpow_lt_zpow_iff_right₀ (by norm_num : (1 : ℚ) < 10)).1 (h.1.trans_lt h'.2)
  have hlt' := (zpow_lt_zpow_iff_right₀ (by norm_num : (1 : ℚ) < 10)).1 (h'.1.trans_lt h.2)
  omega

theorem normal_unique {m m' : ℚ} {k k' : ℤ} (hm : 1 ≤ |m| ∧ |m| < 10) (hm' : 1 ≤ |m'| ∧ |m'| < 10)
    (h : m * 10 ^ k = m' * 10 ^ k') : m = m' ∧ k = k' := by
  have hrange : ∀ {m : ℚ} {k : ℤ}, 1 ≤ |m| ∧ |m| < 10 →
      10 ^ k ≤ |m * 10 ^ k| ∧ |m * 10 ^ k| < 10 ^ (k + 1) := by
    intro m k hm
    have hpow : (0 : ℚ) < 10 ^ k := by positivity
    rw [abs_mul, abs_of_pos hpow, zpow_add_one₀ (by norm_num), mul_comm _ (10 : ℚ)]
    exact ⟨le_mul_of_one_le_left hpow.le hm.1, mul_lt_mul_of_pos_right hm.2 hpow⟩
  obtain rfl := zpow_unique (hrange hm) (h ▸ hrange hm')
  exact ⟨mul_right_cancel₀ (by positivity) h, rfl⟩

/-- One text only shows a value with so many decimals. -/
theorem Shows.unique (h : Shows digits q t) (h' : Shows digits q t') : t = t' := by
  cases h with
  | plain range rounded text =>
    cases h' with
    | plain _ rounded' text' =>
      obtain rfl := rounded.unique (by positivity) rounded'
      exact text.text_unique text'
    | scientific range' => exact absurd range range'
  | scientific range leading rounded normal _ mantissaText exponentText =>
    cases h' with
    | plain range' => exact absurd range' range
    | scientific _ leading' rounded' normal' _ mantissaText' exponentText' =>
      obtain rfl := zpow_unique leading leading'
      obtain ⟨rfl, rfl⟩ := normal_unique normal normal' (rounded.unique (by positivity) rounded')
      rw [mantissaText.text_unique mantissaText', exponentText.text_unique exponentText']

theorem Shows.ne_negativeZero (h : Shows digits q t) : t ≠ ['-', '0'] := by
  cases h with
  | plain _ _ text => exact text.ne_negativeZero
  | @scientific _ _ _ mantissa exponent =>
    intro hzero
    have hmem : 'e' ∈ mantissa ++ 'e' :: exponent := by simp
    rw [hzero] at hmem
    revert hmem
    decide

theorem shows_result {x : Float} (h : value? x = some q) (digits : ℕ) :
    Shows digits q (result x digits) := by
  obtain ⟨negative, units, hx, rfl⟩ := Double.value?_eq_some_iff.1 h
  rw [result, hx]
  exact shows_finite negative units digits

end Unique

/-- A finite result is shown by the one text that its exact value and the number of decimals
leave, and never as a negative zero. -/
theorem result_iff_shows {x : Float} {q : ℚ} (h : value? x = some q) (digits : ℕ) :
    (∀ t, result x digits = t ↔ Shows digits q t) ∧ result x digits ≠ "-0".toList := by
  have hshows := shows_result h digits
  exact ⟨fun t => ⟨fun ht => ht ▸ hshows, hshows.unique⟩, hshows.ne_negativeZero⟩

/-- A mantissa of `-9.96` is rounded up to ten, which is one with the next exponent. -/
theorem result_rounded_to_ten : ∃ q, value? (-9.96e-7) = some q
    ∧ Shows 1 q "-1e-6".toList ∧ result (-9.96e-7) 1 ≠ "-0".toList := by
  obtain ⟨units, hfloat⟩ : ∃ units, Double.ofFloat (-9.96e-7) = .finite true units :=
    ⟨Double.magnitude 0x3eb0b5c994cdc6b7, by decide +kernel⟩
  have hvalue := Double.value?_eq_some_iff.2 ⟨true, units, hfloat, rfl⟩
  have htext : result (-9.96e-7) 1 = "-1e-6".toList := by decide +kernel
  obtain ⟨hshows, hzero⟩ := result_iff_shows hvalue 1
  exact ⟨_, hvalue, (hshows _).1 htext, hzero⟩

end Display

end TexCalc
