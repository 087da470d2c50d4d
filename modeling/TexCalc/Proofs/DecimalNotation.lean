import Mathlib
import TexCalc.Proofs.DecimalText

/-!
# Canonical decimal notation

The canonical text of a rational number has a minus exactly if the number is negative, a whole part
without superfluous leading zero, and a point with decimals exactly if the number is not whole, the
last of them not zero. The decimal numbers are written so (`decimalText_text`), and number and text
determine each other (`DecimalText.number_unique`, `DecimalText.text_unique`).
-/

namespace TexCalc

/-- The canonical digits of the magnitude of `r`, in front of the point and behind it. -/
structure IsDigits (r : ℚ) (whole behind : Text) : Prop where
  nonempty : whole ≠ []
  wholeDigits : ∀ c ∈ whole, c.isDigit = true
  behindDigits : ∀ c ∈ behind, c.isDigit = true
  leading : whole.head? = some '0' → whole = ['0']
  trailing : behind.getLast? ≠ some '0'
  point : behind = [] ↔ ∃ n : ℤ, r = n
  magnitude : |r| = (Nat.ofDigitChars 10 (whole ++ behind) 0 : ℚ) / 10 ^ behind.length

/-- `DecimalText r t`: the text `t` is the canonical decimal text of `r`. -/
def DecimalText (r : ℚ) (t : Text) : Prop :=
  ∃ whole behind, IsDigits r whole behind
    ∧ t = (if r < 0 then ['-'] else []) ++ whole ++ Decimal.pointed behind

section Digits

theorem digitChar_eq_zero {d : ℕ} (hd : d < 10) (h : Nat.digitChar d = '0') : d = 0 := by
  have hvalue := Nat.toNat_digitChar_sub_48_of_lt_ten hd
  rw [h] at hvalue
  exact hvalue.symm

/-- Only the number zero begins with one. -/
theorem ofNat_leading (n : ℕ) (h : (Text.ofNat n).head? = some '0') : Text.ofNat n = ['0'] := by
  induction n using Nat.strong_induction_on with
  | _ n ih =>
    rw [Text.ofNat, Nat.toDigits_eq_if (by decide)] at h ⊢
    split
    · next hn =>
      rw [if_pos hn, List.head?_cons, Option.some.injEq] at h
      rw [h]
    · next hn =>
      rw [if_neg hn, List.head?_append_of_ne_nil _ Nat.toDigits_ne_nil] at h
      have hzero := ih (n / 10) (by omega) h
      have hvalue : Nat.ofDigitChars 10 (Text.ofNat (n / 10)) 0 = n / 10 :=
        Nat.ofDigitChars_ten_toDigits
      rw [hzero] at hvalue
      have : n / 10 = 0 := hvalue.symm
      omega

namespace Decimal

variable {places rest count : ℕ}

theorem decimals_eq_nil_iff (h : rest < Nat.pow 10 places) :
    decimals places rest = [] ↔ rest = 0 := by
  cases places with
  | zero => exact ⟨fun _ => Nat.lt_one_iff.1 h, fun _ => rfl⟩
  | succ places =>
    rw [decimals]
    split <;> simp [*]

/-- The decimals go as far as the last one that is not zero. -/
theorem getLast?_decimals (h : rest < Nat.pow 10 places) :
    (decimals places rest).getLast? ≠ some '0' := by
  induction places generalizing rest with
  | zero =>
    intro hlast
    cases hlast
  | succ places ih =>
    rw [decimals]
    split
    · intro hlast
      cases hlast
    · next hrest =>
      have hlt := Nat.mod_lt rest (ten_pow_pos places)
      rw [List.getLast?_cons]
      rcases hlast : (decimals places (rest % Nat.pow 10 places)).getLast? with _ | c
      · -- nothing but zeros follows, so this decimal is not zero
        have hzero := (decimals_eq_nil_iff hlt).1 (List.getLast?_eq_none_iff.1 hlast)
        intro hdigit
        have hdiv := digitChar_eq_zero (div_lt_ten h) (Option.some.inj hdigit)
        have hsplit := Nat.div_add_mod rest (Nat.pow 10 places)
        rw [hzero, hdiv, Nat.mul_zero] at hsplit
        exact hrest hsplit.symm
      · have hne := ih hlt
        rw [hlast] at hne
        exact hne

theorem text_zero_places (n : ℕ) : text n 0 = Text.ofNat n := by
  rw [text_eq_pointed]
  exact (List.append_nil _).trans (congrArg Text.ofNat (Nat.div_one n))

end Decimal

end Digits

section Unique

open Nat (ofDigitChars ofDigitChars_append ofDigitChars_eq_ofDigitChars_zero)

/-- The number that a digit stands for. -/
theorem exists_digitChar {c : Char} (hc : c.isDigit = true) : ∃ d < 10, c = Nat.digitChar d := by
  have hrange : 48 ≤ c.toNat ∧ c.toNat ≤ 57 := Char.isDigit_iff_toNat.1 hc
  refine ⟨c.toNat - 48, by omega, ?_⟩
  apply Char.toNat_inj.1
  rw [Nat.toNat_digitChar_of_lt_ten (by omega)]
  omega

theorem ofDigitChars_concat {c : Char} {d : ℕ} (hd : d < 10) (hc : c = Nat.digitChar d)
    (digits : Text) : ofDigitChars 10 (digits ++ [c]) 0 = 10 * ofDigitChars 10 digits 0 + d := by
  rw [ofDigitChars_append, hc, Nat.ofDigitChars_cons_digitChar_of_lt_ten hd,
    Nat.ofDigitChars_nil]

theorem ofDigitChars_lt {digits : Text} (h : ∀ c ∈ digits, c.isDigit = true) :
    ofDigitChars 10 digits 0 < 10 ^ digits.length := by
  induction digits using List.reverseRecOn with
  | nil => exact Nat.one_pos
  | append_singleton digits c ih =>
    obtain ⟨d, hd, hc⟩ := exists_digitChar (h c (by simp))
    have hlt := ih fun c hc => h c (List.mem_append_left _ hc)
    rw [ofDigitChars_concat hd hc, List.length_append, List.length_singleton, pow_succ]
    omega

/-- As many digits for the same number are the same digits. -/
theorem eq_of_ofDigitChars_eq {digits digits' : Text} (h : ∀ c ∈ digits, c.isDigit = true)
    (h' : ∀ c ∈ digits', c.isDigit = true) (hlength : digits.length = digits'.length)
    (hvalue : ofDigitChars 10 digits 0 = ofDigitChars 10 digits' 0) : digits = digits' := by
  induction digits using List.reverseRecOn generalizing digits' with
  | nil => exact (List.eq_nil_of_length_eq_zero hlength.symm).symm
  | append_singleton digits c ih =>
    rcases List.eq_nil_or_concat' digits' with rfl | ⟨digits', c', rfl⟩
    · simp at hlength
    obtain ⟨d, hd, hc⟩ := exists_digitChar (h c (by simp))
    obtain ⟨d', hd', hc'⟩ := exists_digitChar (h' c' (by simp))
    rw [ofDigitChars_concat hd hc, ofDigitChars_concat hd' hc'] at hvalue
    rw [ih (fun c hc => h c (List.mem_append_left _ hc))
      (fun c hc => h' c (List.mem_append_left _ hc)) (by simpa using hlength) (by omega), hc, hc',
      show d = d' by omega]

/-- Digits without superfluous leading zero are those of their number. -/
theorem ofNat_ofDigitChars {digits : Text} (hne : digits ≠ [])
    (h : ∀ c ∈ digits, c.isDigit = true) (leading : digits.head? = some '0' → digits = ['0']) :
    Text.ofNat (ofDigitChars 10 digits 0) = digits := by
  induction digits using List.reverseRecOn with
  | nil => exact absurd rfl hne
  | append_singleton digits c ih =>
    obtain ⟨d, hd, hc⟩ := exists_digitChar (h c (by simp))
    rw [ofDigitChars_concat hd hc, Text.ofNat]
    rcases eq_or_ne digits [] with rfl | hdigits
    · rw [Nat.ofDigitChars_nil, Nat.mul_zero, Nat.zero_add, Nat.toDigits_of_lt_base hd, hc]
      rfl
    · have hhead : digits.head? ≠ some '0' := by
        intro hzero
        have hwhole := leading (by rw [List.head?_append_of_ne_nil _ hdigits, hzero])
        simp [List.append_eq_cons_iff, hdigits] at hwhole
      have hfront := ih hdigits (fun c hc => h c (List.mem_append_left _ hc))
        fun hzero => absurd hzero hhead
      have hpos : 0 < ofDigitChars 10 digits 0 := by
        refine Nat.pos_of_ne_zero fun hzero => hhead ?_
        rw [← hfront, hzero]
        rfl
      rw [← Nat.toDigits_append_toDigits (by decide) hpos hd, Nat.toDigits_of_lt_base hd, ← hc]
      exact congrArg (· ++ [c]) hfront

end Unique

section Texts

open Decimal

open Nat (ofDigitChars)

variable {r r' m m' k k' : ℚ} {t t' mantissa mantissa' exponent exponent' : Text} {count places : ℕ}

theorem mod_eq_zero_iff (h : |r| = (count : ℚ) / 10 ^ places) :
    count % Nat.pow 10 places = 0 ↔ ∃ n : ℤ, r = n := by
  constructor
  · intro hrest
    obtain ⟨n, rfl⟩ := Nat.dvd_of_mod_eq_zero hrest
    have habs : |r| = n := by
      rw [h, Nat.pow_eq, Nat.cast_mul, Nat.cast_pow]
      exact mul_div_cancel_left₀ _ (by positivity)
    rcases eq_or_eq_neg_of_abs_eq habs with rfl | rfl
    · exact ⟨n, by simp⟩
    · exact ⟨-n, by simp⟩
  · rintro ⟨n, rfl⟩
    rw [eq_div_iff (by positivity), ← Int.cast_abs, ← Nat.cast_natAbs] at h
    have hcount : n.natAbs * Nat.pow 10 places = count := by exact_mod_cast h
    rw [← hcount, Nat.mul_mod_left]

theorem isDigits_text (h : |r| = (count : ℚ) / 10 ^ places) :
    IsDigits r (Text.ofNat (count / Nat.pow 10 places))
      (decimals places (count % Nat.pow 10 places)) := by
  have hlt := Nat.mod_lt count (ten_pow_pos places)
  refine ⟨ofNat_ne_nil _, fun _ => isDigit_of_mem_ofNat, fun _ => isDigit_of_mem_decimals hlt,
    ofNat_leading _, getLast?_decimals hlt, ?_, ?_⟩
  · rw [decimals_eq_nil_iff hlt, mod_eq_zero_iff h]
  · rw [h, Nat.ofDigitChars_append, Text.ofNat, Nat.ofDigitChars_ten_toDigits]
    have hvalue := ofDigitChars_decimals hlt (count / Nat.pow 10 places)
    rw [Nat.div_add_mod'] at hvalue
    rw [div_eq_div_iff (by positivity) (by positivity)]
    exact_mod_cast hvalue.symm

/-- Decimal numbers are written in canonical notation. -/
theorem decimalText_text (h : |r| = (count : ℚ) / 10 ^ places) :
    DecimalText r ((if r < 0 then ['-'] else []) ++ text count places) :=
  ⟨_, _, isDigits_text h, by rw [text_eq_pointed, List.append_assoc]⟩

theorem decimalText_ofInt (n : ℤ) : DecimalText n (Text.ofInt n) := by
  have habs : |(n : ℚ)| = (n.natAbs : ℚ) / 10 ^ 0 := by
    rw [pow_zero, div_one, Nat.cast_natAbs, Int.cast_abs]
  have htext := decimalText_text habs
  simp only [text_zero_places, Int.cast_lt_zero] at htext
  rw [Text.ofInt]
  split <;> simpa [*] using htext

theorem DecimalText.eq_signed (h : DecimalText r t) : ∃ whole behind, IsDigits r whole behind
    ∧ t = Double.toText.signed (decide (r < 0)) (whole ++ pointed behind) := by
  obtain ⟨whole, behind, digits, rfl⟩ := h
  refine ⟨whole, behind, digits, ?_⟩
  rw [Double.toText.signed]
  split <;> simp_all

/-- A text is the canonical notation of one number only. -/
theorem DecimalText.number_unique (h : DecimalText r t) (h' : DecimalText r' t) : r = r' := by
  obtain ⟨whole, behind, digits, htext⟩ := h.eq_signed
  obtain ⟨whole', behind', digits', htext'⟩ := h'.eq_signed
  have hsplit := splitSign_pointed (decide (r < 0)) digits.nonempty digits.wholeDigits
    digits.behindDigits
  rw [← htext, htext', splitSign_pointed _ digits'.nonempty digits'.wholeDigits
    digits'.behindDigits, Prod.mk.injEq, decide_eq_decide] at hsplit
  obtain ⟨hsign, hbody⟩ := hsplit
  obtain ⟨hwhole, hbehind⟩ := parts_pointed digits.wholeDigits behind
  obtain ⟨hwhole', hbehind'⟩ := parts_pointed digits'.wholeDigits behind'
  rw [← hbody, hwhole'] at hwhole
  rw [← hbody, hbehind'] at hbehind
  have habs : |r| = |r'| := by rw [digits.magnitude, digits'.magnitude, hwhole, hbehind]
  rcases lt_or_ge r 0 with hr | hr
  · rw [abs_of_neg hr, abs_of_neg (hsign.2 hr)] at habs
    exact neg_injective habs
  · rwa [abs_of_nonneg hr, abs_of_nonneg (not_lt.1 (hsign.not.2 hr.not_gt))] at habs

/-- Of two canonical ways to write a number none has more decimals. -/
theorem IsDigits.length_le {whole behind whole' behind' : Text} (h : IsDigits r whole behind)
    (h' : IsDigits r whole' behind') : behind'.length ≤ behind.length := by
  by_contra hlt
  obtain ⟨further, hlength⟩ := Nat.exists_eq_add_of_lt (not_le.1 hlt)
  rcases List.eq_nil_or_concat' behind' with rfl | ⟨digits, c, rfl⟩
  · cases hlength
  obtain ⟨d, hd, hc⟩ := exists_digitChar (h'.behindDigits c (by simp))
  have hvalue := h.magnitude.symm.trans h'.magnitude
  rw [div_eq_div_iff (by positivity) (by positivity), ← List.append_assoc,
    ofDigitChars_concat hd hc, hlength] at hvalue
  -- the one with more decimals ends in a zero
  have hlast : ofDigitChars 10 (whole ++ behind) 0 * 10 ^ further * 10
      = 10 * ofDigitChars 10 (whole' ++ digits) 0 + d := by
    refine Nat.eq_of_mul_eq_mul_right (Nat.pow_pos (by decide : 0 < 10) : 0 < 10 ^ behind.length) ?_
    rw [pow_succ, pow_add] at hvalue
    norm_cast at hvalue
    rw [← hvalue]
    ring
  obtain rfl : d = 0 := by omega
  exact h'.trailing (by rw [List.getLast?_concat, hc]; rfl)

/-- A number has one canonical notation only. -/
theorem DecimalText.text_unique (h : DecimalText r t) (h' : DecimalText r t') : t = t' := by
  obtain ⟨whole, behind, digits, rfl⟩ := h
  obtain ⟨whole', behind', digits', rfl⟩ := h'
  have hlength : behind.length = behind'.length :=
    Nat.le_antisymm (digits'.length_le digits) (digits.length_le digits')
  have hvalue := digits.magnitude.symm.trans digits'.magnitude
  rw [hlength, div_left_inj' (by positivity), Nat.cast_inj, Nat.ofDigitChars_append,
    Nat.ofDigitChars_append, Nat.ofDigitChars_eq_ofDigitChars_zero,
    @Nat.ofDigitChars_eq_ofDigitChars_zero behind', hlength] at hvalue
  have hlt := ofDigitChars_lt digits.behindDigits
  have hlt' := ofDigitChars_lt digits'.behindDigits
  rw [hlength] at hlt
  have hdiv := congrArg (· / 10 ^ behind'.length) hvalue
  have hmod := congrArg (· % 10 ^ behind'.length) hvalue
  simp only [Nat.mul_add_div (Nat.pow_pos (by decide : 0 < 10)), Nat.div_eq_of_lt hlt,
    Nat.div_eq_of_lt hlt', Nat.mul_add_mod, Nat.mod_eq_of_lt hlt, Nat.mod_eq_of_lt hlt',
    Nat.add_zero] at hdiv hmod
  have hwhole := ofNat_ofDigitChars digits.nonempty digits.wholeDigits digits.leading
  rw [hdiv, ofNat_ofDigitChars digits'.nonempty digits'.wholeDigits digits'.leading] at hwhole
  rw [hwhole, eq_of_ofDigitChars_eq digits.behindDigits digits'.behindDigits hlength hmod]

theorem DecimalText.mem (h : DecimalText r t) {c : Char} (hc : c ∈ t) :
    c = '-' ∨ c = '.' ∨ c.isDigit = true := by
  obtain ⟨whole, behind, digits, rfl⟩ := h
  rcases List.mem_append.1 hc with hc | hc
  · rcases List.mem_append.1 hc with hc | hc
    · split at hc
      · exact .inl (List.mem_singleton.1 hc)
      · cases hc
    · exact .inr (.inr (digits.wholeDigits c hc))
  · cases behind with
    | nil => cases hc
    | cons d behind =>
      rcases List.mem_cons.1 hc with rfl | hc
      · exact .inr (.inl rfl)
      · exact .inr (.inr (digits.behindDigits c hc))

/-- Zero has no minus. -/
theorem DecimalText.ne_negativeZero (h : DecimalText r t) : t ≠ ['-', '0'] := by
  obtain ⟨whole, behind, digits, rfl⟩ := h
  intro hzero
  split at hzero
  · next hr =>
    obtain ⟨hwhole, hbehind⟩ := parts_pointed digits.wholeDigits behind
    have hbody : whole ++ pointed behind = ['0'] := by simpa using hzero
    rw [hbody] at hwhole hbehind
    obtain rfl : ['0'] = whole := hwhole
    obtain rfl : [] = behind := hbehind
    have hvalue : ofDigitChars 10 (['0'] ++ []) 0 = 0 := rfl
    have habs := digits.magnitude
    rw [hvalue, Nat.cast_zero, zero_div, abs_eq_zero] at habs
    exact hr.ne habs
  · obtain ⟨c, further, rfl⟩ := List.exists_cons_of_ne_nil digits.nonempty
    obtain rfl : c = '-' := (List.cons.inj hzero).1
    exact absurd (digits.wholeDigits '-' List.mem_cons_self) (by decide)

theorem DecimalText.not_mem (h : DecimalText r t) {c : Char}
    (hc : ¬(c = '-' ∨ c = '.' ∨ c.isDigit = true)) : c ∉ t :=
  fun hmem => hc (h.mem hmem)

theorem DecimalText.ne_scientific (h : DecimalText r t) : t ≠ mantissa ++ 'e' :: exponent := by
  rintro rfl
  exact h.not_mem (c := 'e') (by decide) (by simp)

/-- The mantissa goes as far as the mark of the exponent. -/
theorem DecimalText.scientific_inj (h : DecimalText m mantissa) (h' : DecimalText m' mantissa')
    (heq : mantissa ++ 'e' :: exponent = mantissa' ++ 'e' :: exponent') :
    mantissa = mantissa' ∧ exponent = exponent' := by
  have htake : ∀ {m mantissa} (exponent : Text), DecimalText m mantissa →
      (mantissa ++ 'e' :: exponent).takeWhile (· != 'e') = mantissa := fun _ h =>
    takeWhile_run (fun _ hc => bne_iff_ne.2 fun he => h.not_mem (by decide) (he ▸ hc)) rfl
  have hmantissa := htake exponent h
  rw [heq, htake _ h'] at hmantissa
  subst hmantissa
  exact ⟨rfl, (List.cons.inj (List.append_cancel_left heq)).2⟩

end Texts

end TexCalc
