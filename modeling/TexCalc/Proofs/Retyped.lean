import Mathlib
import TexCalc.Proofs.Agreement
import TexCalc.Proofs.Canonical
import TexCalc.Proofs.CorrectRounding
import TexCalc.Proofs.Parts
import TexCalc.Proofs.Shown

/-!
# A result that is typed back

The calculator reads what it shows as an entry. A plain decimal text is one number, and the double
nearest to it is its value (`evaluate_decimalText`). The exponent of a scientific text is none for
the lexer: its mark is the constant `e`, and a minus behind that is an operator, so more than one
value is left (`evaluate_scientific`). Nothing else that is shown has a value either, and no text
that is shown has a command in it (`result_typed_back`).
-/

namespace TexCalc

/-- A decimal text behind which the decimal text of an exponent stands. -/
def IsScientific (t : Text) : Prop :=
  ∃ (m : ℚ) (k : ℤ) (mantissa exponent : Text), DecimalText m mantissa ∧ DecimalText k exponent
    ∧ t = mantissa ++ 'e' :: exponent

section Numerals

variable {r : ℚ} {t : Text}

theorem DecimalText.isNumeral (h : DecimalText r t) : IsNumeral t := by
  obtain ⟨whole, behind, digits, rfl⟩ := h.eq_signed
  have hunsigned := Decimal.isUnsigned_pointed digits.nonempty digits.wholeDigits
    digits.behindDigits
  cases decide (r < 0)
  · exact .unsigned hunsigned
  · exact .signed (.inr rfl) hunsigned

theorem DecimalText.isAlpha_eq_false (h : DecimalText r t) {c : Char} (hc : c ∈ t) :
    c.isAlpha = false := by
  refine Bool.eq_false_iff.2 fun halpha => ?_
  have hbegins := not_beginsNumber_of_isAlpha halpha false []
  rcases h.mem hc with rfl | rfl | hdigit
  · cases halpha
  · cases halpha
  · simp [beginsNumber, isNumeric, hdigit] at hbegins

theorem DecimalText.isNearest_value (h : DecimalText r t) {j : ℕ} (hsmall : |r| < 2 ^ j)
    (hj : j < 1024) : Double.IsNearest r (Numeral.value h.isNumeral) := by
  have hvalue := Numeral.read?_eq_value h.isNumeral
  obtain ⟨whole, behind, digits, ht⟩ := h.eq_signed
  have hread := Decimal.read?_pointed (decide (r < 0)) digits.nonempty digits.wholeDigits
    digits.behindDigits
  rw [← ht, hvalue, Option.some.injEq] at hread
  rw [hread]
  have hden := ten_pow_pos behind.length
  have habs : |r| = (Nat.ofDigitChars 10 (whole ++ behind) 0 : ℚ) / Nat.pow 10 behind.length := by
    rw [digits.magnitude, Nat.pow_eq, Nat.cast_pow, Nat.cast_ofNat]
  refine Double.isNearest_nearest hden habs (Double.nearestBits_lt_infinityBits hden ?_ hj)
  rw [habs, div_lt_iff₀ (by exact_mod_cast hden)] at hsmall
  exact_mod_cast hsmall

end Numerals

section Reading

variable {m : ℚ} {k : ℤ} {mantissa exponent t : Text}

theorem reads_number (h : IsNumeral t) {signAllowed : Bool}
    (fits : (Token.number (Numeral.value h)).Fits signAllowed t []) :
    Reads signAllowed t [.number (Numeral.value h)] := by
  have hnil : Reads false [] [] := (reads_blank_iff rfl).2 rfl
  simpa using Reads.cons (.number h) fits hnil

theorem head_isNumeric (h : IsUnsigned t) : t.head?.any isNumeric = true := by
  obtain ⟨c, body, rfl⟩ := h.exists_cons
  exact h.isNumeric c List.mem_cons_self

theorem head_isAlpha {r : ℚ} (h : DecimalText r t) : t.head?.any Char.isAlpha = false := by
  cases t with
  | nil => rfl
  | cons c t => exact h.isAlpha_eq_false List.mem_cons_self

theorem exists_reads_exponent (h : DecimalText k exponent) : ∃ y,
    Reads false exponent [.number y] ∨ Reads false exponent [.operator .minus, .number y] := by
  obtain ⟨whole, behind, digits, rfl⟩ := h.eq_signed
  have hunsigned := Decimal.isUnsigned_pointed digits.nonempty digits.wholeDigits
    digits.behindDigits
  have hhead := head_isNumeric hunsigned
  refine ⟨Numeral.value (.unsigned hunsigned), ?_⟩
  cases decide ((k : ℚ) < 0)
  · exact .inl (reads_number (.unsigned hunsigned) ⟨.inr hhead, rfl⟩)
  · exact .inr (Reads.cons (.operator .minus) rfl
      (reads_number (.unsigned hunsigned) ⟨.inr hhead, rfl⟩))

theorem exists_reads_scientific (hm : DecimalText m mantissa) (hk : DecimalText k exponent) :
    ∃ x y, Reads true (mantissa ++ 'e' :: exponent) [.number x, .constant .e, .number y]
      ∨ Reads true (mantissa ++ 'e' :: exponent)
        [.number x, .constant .e, .operator .minus, .number y] := by
  obtain ⟨y, hy⟩ := exists_reads_exponent hk
  have hmantissa : ∀ {ts}, Reads false exponent ts → Reads true (mantissa ++ 'e' :: exponent)
      (.number (Numeral.value hm.isNumeral) :: .constant .e :: ts) := fun hts =>
    Reads.cons (.number hm.isNumeral) ⟨.inl rfl, rfl⟩
      (Reads.cons (.constant .e) (head_isAlpha hk) hts)
  exact ⟨_, y, hy.imp hmantissa hmantissa⟩

theorem evaluate_decimalText {r : ℚ} (h : DecimalText r t) {j : ℕ} (hsmall : |r| < 2 ^ j)
    (hj : j < 1024) : ∃ y, (∀ z, Double.IsNearest r z ↔ z = y)
      ∧ (evaluate .ascii t).map (·.value) = .ok y := by
  have hnearest := h.isNearest_value hsmall hj
  have hreads := reads_number h.isNumeral ⟨.inl (rfl : true = true), rfl⟩
  have hprogram : ∀ y, Postfix.ofInfix [.number y] = .ok [.number y] := fun _ => rfl
  exact ⟨_, fun z => ⟨fun hz => hz.unique hnearest, fun hz => hz ▸ hnearest⟩,
    evaluate_ascii hreads (hprogram _)⟩

/-- In a scientific text three values stand side by side, or two of them behind a difference. -/
theorem evaluate_scientific (h : IsScientific t) : ∃ left,
    (evaluate .ascii t).map (·.value) = .error (.unbalancedStack left) := by
  obtain ⟨m, k, mantissa, exponent, hm, hk, rfl⟩ := h
  obtain ⟨x, y, hreads | hreads⟩ := exists_reads_scientific hm hk
  · have hprogram : Postfix.ofInfix [.number x, .constant .e, .number y]
        = .ok [.number x, .constant .e, .number y] := rfl
    exact ⟨3, evaluate_ascii hreads hprogram⟩
  · have hprogram : Postfix.ofInfix [.number x, .constant .e, .operator .minus, .number y]
        = .ok [.number x, .constant .e, .number y, .operator .minus] := rfl
    exact ⟨2, evaluate_ascii hreads hprogram⟩

end Reading

namespace Display

open Double (value? IsNearest)

variable {x : Float} {q r : ℚ} {digits : ℕ} {t : Text}

/-- The texts of results that are no numbers. -/
def specials : List Text :=
  ["∞".toList, "-∞".toList, "NaN".toList]

theorem result_mem_specials (h : value? x = none) (digits : ℕ) : result x digits ∈ specials := by
  unfold Double.value? at h
  unfold result
  split at h
  · cases h
  · next hfinite =>
    rcases hx : Double.ofFloat x with _ | _ | ⟨negative, units⟩
    · exact (by decide : "NaN".toList ∈ specials)
    · split
      · exact (by decide : "NaN".toList ∈ specials)
      · exact (by decide : "∞".toList ∈ specials)
      · exact (by decide : "-∞".toList ∈ specials)
      · contradiction
    · exact absurd hx (hfinite negative units)

theorem not_mem_specials (h : DecimalText r t) : t ∉ specials := by
  have hinfinity : '∞' ∉ t := h.not_mem (by decide)
  have hletter : 'N' ∉ t := h.not_mem (by decide)
  simp only [specials, List.mem_cons, List.not_mem_nil, or_false]
  rintro (rfl | rfl | rfl)
  · exact hinfinity (by decide)
  · exact hinfinity (by decide)
  · exact hletter (by decide)

theorem Shows.forms (h : Shows digits q t) : (∃ r, DecimalText r t) ∨ IsScientific t := by
  cases h with
  | plain _ _ text => exact .inl ⟨_, text⟩
  | scientific _ _ _ _ _ mantissaText exponentText =>
    exact .inr ⟨_, _, _, _, mantissaText, exponentText, rfl⟩

/-- Every result is shown in plain decimal notation or in scientific notation, or is no number. -/
theorem result_forms (x : Float) (digits : ℕ) : (∃ r, DecimalText r (result x digits))
    ∨ IsScientific (result x digits) ∨ result x digits ∈ specials := by
  rcases hx : value? x with _ | q
  · exact .inr (.inr (result_mem_specials hx digits))
  · exact (shows_result hx digits).forms.imp_right .inl

theorem Shows.abs_lt (h : Shows digits q t) (ht : DecimalText r t) : |r| < 2 ^ 54 := by
  cases h with
  | plain range rounded text =>
    obtain rfl := ht.number_unique text
    have hq : |q| < 10 ^ 16 := by
      rcases range with rfl | ⟨-, hq⟩
      · norm_num
      · exact hq
    have hclose := rounded.le_half (by positivity)
    have hstep : (1 : ℚ) / 10 ^ digits ≤ 1 :=
      div_le_one_of_le₀ (one_le_pow₀ (by norm_num)) (by positivity)
    have habs := abs_sub_abs_le_abs_sub r q
    rw [abs_sub_comm] at habs
    norm_num at hq ⊢
    linarith
  | scientific => exact absurd rfl ht.ne_scientific

theorem abs_lt_of_result (h : DecimalText r (result x digits)) : |r| < 2 ^ 54 := by
  rcases hx : value? x with _ | q
  · exact absurd (result_mem_specials hx digits) (not_mem_specials h)
  · exact (shows_result hx digits).abs_lt h

theorem result_plain (x : Float) (digits : ℕ) : ∀ c ∈ result x digits, c ≠ '\\' := by
  rintro _ hc rfl
  rcases result_forms x digits with ⟨r, h⟩ | ⟨m, k, mantissa, exponent, hm, hk, ht⟩ | h
  · exact h.not_mem (by decide) hc
  · rw [ht, List.mem_append, List.mem_cons] at hc
    rcases hc with hc | hc | hc
    · exact hm.not_mem (by decide) hc
    · cases hc
    · exact hk.not_mem (by decide) hc
  · exact (by decide : ∀ t ∈ specials, '\\' ∉ t) _ h hc

/-- The text `t` has no value, for a cause of this family. -/
def Refused (t : Text) (family : Failure.Family) : Prop :=
  ∃ cause, (evaluate .ascii t).map (·.value) = .error cause ∧ cause.family = family

/-- Every result is shown in plain decimal notation, in scientific notation or as a text that is no
number. Typed back, a plain one has the value nearest to what it shows, and any other one is
refused; and it is the same whether LaTeX is read or not. -/
theorem result_typed_back (x : Float) (digits : ℕ) :
    ((∃ r, DecimalText r (result x digits)) ∨ IsScientific (result x digits)
        ∨ result x digits ∈ ["∞".toList, "-∞".toList] ∨ result x digits = "NaN".toList)
      ∧ (∀ r, DecimalText r (result x digits) → ∃ y, (∀ z, IsNearest r z ↔ z = y)
        ∧ (evaluate .ascii (result x digits)).map (·.value) = .ok y)
      ∧ (IsScientific (result x digits) → Refused (result x digits) .structural)
      ∧ (result x digits ∈ ["∞".toList, "-∞".toList] → Refused (result x digits) .lexical)
      ∧ (result x digits = "NaN".toList → Refused (result x digits) .syntactic)
      ∧ evaluate .latex (result x digits) = evaluate .ascii (result x digits) := by
  refine ⟨?_, fun r h => evaluate_decimalText h (abs_lt_of_result h) (by decide), fun h => ?_,
    fun h => ?_, fun h => ?_, ?_⟩
  · refine (result_forms x digits).imp_right fun h => h.imp_right fun h => ?_
    simpa [specials, or_assoc] using h
  · obtain ⟨left, herror⟩ := evaluate_scientific h
    exact ⟨_, herror, rfl⟩
  · rcases List.mem_pair.1 h with h | h <;> rw [h]
    · exact ⟨.unexpectedChar '∞' 0, by decide +kernel, rfl⟩
    · exact ⟨.unexpectedChar '∞' 1, by decide +kernel, rfl⟩
  · rw [h]
    exact ⟨.unknownName "NaN".toList, by decide +kernel, rfl⟩
  · have hcanonical : Latex.toCanonical (result x digits) = result x digits :=
      Latex.toCanonical_eq_self (Latex.not_hasCommand_of_plain (result_plain x digits))
    simp only [evaluate, Mode.canonical, hcanonical]

/-- What shows a small number is a difference behind two values. -/
example : (evaluate .ascii (result 1e-7 10)).map (·.value) = .error (.unbalancedStack 2) := by
  decide +kernel

end Display

end TexCalc
