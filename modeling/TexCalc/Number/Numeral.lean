import TexCalc.Number.Double
import TexCalc.Text.Basic

/-!
# Numerals

A numeral is an optional sign and a run of decimal digits with at most one point, before, among or
behind them. It is read as the double nearest to the number that it writes, and every numeral is
read (`isSome_read?`).
-/

namespace TexCalc

/-- A numeral without a sign. -/
structure IsUnsigned (t : Text) : Prop where
  numeric : ∀ c ∈ t, c.isDigit = true ∨ c = '.'
  digit : ∃ c ∈ t, c.isDigit = true
  point : t.count '.' ≤ 1

instance (t : Text) : Decidable (IsUnsigned t) :=
  decidable_of_iff
    (t.all (fun c => c.isDigit || c == '.') = true ∧ t.any Char.isDigit = true ∧ t.count '.' ≤ 1)
    ⟨fun ⟨h, h', h''⟩ => ⟨by simpa using h, by simpa using h', h''⟩,
      fun ⟨h, h', h''⟩ => ⟨by simpa using h, by simpa using h', h''⟩⟩

inductive IsNumeral : Text → Prop
  | unsigned {t : Text} (h : IsUnsigned t) : IsNumeral t
  | signed {c : Char} {t : Text} (sign : c = '+' ∨ c = '-') (h : IsUnsigned t) :
      IsNumeral (c :: t)

namespace Numeral

/-- Splits a sign from the text behind it; without a sign the number is not negative. -/
def splitSign : Text → Bool × Text
  | '-' :: rest => (true, rest)
  | '+' :: rest => (false, rest)
  | rest => (false, rest)

/-- Reads a numeral: `count / 10 ^ places` for the digits on both sides of the point together and
the number of those behind it. -/
def read? (t : Text) : Option Float :=
  let (negative, body) := splitSign t
  let whole := body.takeWhile (· != '.')
  let behind := (body.dropWhile (· != '.')).drop 1
  let digits := whole ++ behind
  if digits ≠ [] ∧ digits.all Char.isDigit then
    some (Double.nearest negative (Nat.ofDigitChars 10 digits 0) (Nat.pow 10 behind.length))
  else none

theorem splitSign_unsigned {t : Text} (h : IsUnsigned t) : splitSign t = (false, t) := by
  unfold splitSign
  split
  · exact absurd (h.numeric '-' List.mem_cons_self) (by decide)
  · exact absurd (h.numeric '+' List.mem_cons_self) (by decide)
  · rfl

/-- The digits on both sides of the point are all but that. -/
theorem digits_eq_erase (t : Text) :
    t.takeWhile (· != '.') ++ (t.dropWhile (· != '.')).drop 1 = t.erase '.' := by
  induction t with
  | nil => rfl
  | cons c t ih =>
    by_cases h : c = '.'
    · simp [h]
    · simpa [h] using ih

theorem isDigit_of_mem_erase {t : Text} (h : IsUnsigned t) {c : Char} (hc : c ∈ t.erase '.') :
    c.isDigit = true := by
  refine (h.numeric c (List.mem_of_mem_erase hc)).resolve_right ?_
  rintro rfl
  have := List.count_pos_iff.2 hc
  rw [List.count_erase_self] at this
  have := h.point
  omega

theorem erase_ne_nil {t : Text} (h : IsUnsigned t) : t.erase '.' ≠ [] := by
  obtain ⟨c, hc, hdigit⟩ := h.digit
  have hpoint : c ≠ '.' := by
    rintro rfl
    cases hdigit
  exact List.ne_nil_of_mem ((List.mem_erase_of_ne hpoint).2 hc)

theorem isSome_read?_of_splitSign {t body : Text} {negative : Bool}
    (hsplit : splitSign t = (negative, body)) (h : IsUnsigned body) : (read? t).isSome = true := by
  have hdigits : (body.erase '.').all Char.isDigit = true :=
    List.all_eq_true.2 fun _ => isDigit_of_mem_erase h
  simp only [read?, hsplit, digits_eq_erase]
  rw [if_pos ⟨erase_ne_nil h, hdigits⟩]
  rfl

theorem isSome_read? {t : Text} (h : IsNumeral t) : (read? t).isSome = true := by
  cases h with
  | unsigned h => exact isSome_read?_of_splitSign (splitSign_unsigned h) h
  | signed sign h => rcases sign with rfl | rfl <;> exact isSome_read?_of_splitSign rfl h

theorem isUnsigned_of_digits {t : Text} (hne : t.erase '.' ≠ [])
    (hdigits : (t.erase '.').all Char.isDigit = true) : IsUnsigned t := by
  have hdigit : ∀ c ∈ t.erase '.', c.isDigit = true := List.all_eq_true.1 hdigits
  refine ⟨fun c hc => ?_, ?_, ?_⟩
  · by_cases hpoint : c = '.'
    · exact .inr hpoint
    · exact .inl (hdigit c ((List.mem_erase_of_ne hpoint).2 hc))
  · obtain ⟨c, hc⟩ := List.exists_mem_of_ne_nil _ hne
    exact ⟨c, List.mem_of_mem_erase hc, hdigit c hc⟩
  · have hpoint : '.' ∉ t.erase '.' := fun h => by cases hdigit '.' h
    have hcount := List.count_eq_zero.2 hpoint
    rw [List.count_erase_self] at hcount
    omega

/-- Nothing but a numeral is read. -/
theorem isNumeral_of_read? {t : Text} {x : Float} (h : read? t = some x) : IsNumeral t := by
  have hbody : IsUnsigned (splitSign t).2 := by
    simp only [read?, digits_eq_erase] at h
    split at h
    · next hdigits => exact isUnsigned_of_digits hdigits.1 hdigits.2
    · cases h
  unfold splitSign at hbody
  split at hbody
  · exact .signed (.inr rfl) hbody
  · exact .signed (.inl rfl) hbody
  · exact .unsigned hbody

def value {t : Text} (h : IsNumeral t) : Float :=
  (read? t).get (isSome_read? h)

theorem read?_eq_value {t : Text} (h : IsNumeral t) : read? t = some (value h) :=
  (Option.some_get _).symm

end Numeral

end TexCalc
