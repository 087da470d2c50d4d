import TexCalc.Number.Shortest
import TexCalc.Proofs.Nearest
import TexCalc.Proofs.Reading

/-!
# The text of a double is read as that double

The text of a decimal number is a numeral (`isUnsigned_text`), read as the double nearest to that
number (`read?_text`), and the shortest decimal number of a double has the same nearest double as
its magnitude (`nearestBits_shortest`). So the text of a finite double writes it
(`lexeme_toText`).
-/

namespace TexCalc

open Double (nearest nearestBits nearestBits_congr)

theorem ten_pow_pos (k : Nat) : 0 < Nat.pow 10 k :=
  Nat.pow_pos (by decide)

theorem ofNat_ne_nil (n : Nat) : Text.ofNat n ≠ [] :=
  Nat.toDigits_ne_nil

theorem isDigit_of_mem_ofNat {n : Nat} {c : Char} (hc : c ∈ Text.ofNat n) : c.isDigit = true :=
  Nat.isDigit_of_mem_toDigits (by decide) (by decide) hc

namespace Decimal

variable {places rest count : Nat}

theorem div_lt_ten (h : rest < Nat.pow 10 (places + 1)) : rest / Nat.pow 10 places < 10 :=
  (Nat.div_lt_iff_lt_mul (ten_pow_pos places)).2 (by rwa [Nat.mul_comm])

theorem isDigit_of_mem_decimals (h : rest < Nat.pow 10 places) {c : Char}
    (hc : c ∈ decimals places rest) : c.isDigit = true := by
  induction places generalizing rest with
  | zero => cases hc
  | succ places ih =>
    rw [decimals] at hc
    split at hc
    · cases hc
    · rcases List.mem_cons.1 hc with rfl | hc
      · rw [Nat.isDigit_digitChar, decide_eq_true_eq]
        exact div_lt_ten h
      · exact ih (Nat.mod_lt _ (ten_pow_pos places)) hc

/-- The decimals read behind a whole number, as far as they go, stand for the same number as all
of them. -/
theorem ofDigitChars_decimals (h : rest < Nat.pow 10 places) (whole : Nat) :
    Nat.ofDigitChars 10 (decimals places rest) whole * Nat.pow 10 places
      = (whole * Nat.pow 10 places + rest) * Nat.pow 10 (decimals places rest).length := by
  induction places generalizing rest whole with
  | zero =>
    obtain rfl : rest = 0 := Nat.lt_one_iff.1 h
    rw [decimals, Nat.ofDigitChars_nil, Nat.add_zero]
    exact (Nat.mul_one _).symm
  | succ places ih =>
    rw [decimals]
    split
    · next hrest =>
      subst hrest
      rw [Nat.ofDigitChars_nil, Nat.add_zero]
      exact (Nat.mul_one _).symm
    · have hsplit := Nat.div_add_mod rest (Nat.pow 10 places)
      have hdigits := ih (Nat.mod_lt rest (ten_pow_pos places))
        (10 * whole + rest / Nat.pow 10 places)
      rw [Nat.ofDigitChars_cons_digitChar_of_lt_ten (div_lt_ten h), List.length_cons]
      generalize Nat.ofDigitChars 10 _ _ = digits at hdigits ⊢
      generalize (decimals _ _).length = length at hdigits ⊢
      generalize rest / Nat.pow 10 places = digit at hsplit hdigits
      generalize rest % Nat.pow 10 places = further at hsplit hdigits
      calc digits * Nat.pow 10 (places + 1)
        _ = digits * Nat.pow 10 places * 10 := (Nat.mul_assoc _ _ _).symm
        _ = ((10 * whole + digit) * Nat.pow 10 places + further) * Nat.pow 10 length * 10 := by
          rw [hdigits]
        _ = (whole * (Nat.pow 10 places * 10) + rest) * (Nat.pow 10 length * 10) := by
          rw [← hsplit]
          ring

/-- Decimals behind their point, which does not stand without them. -/
def pointed : Text → Text
  | [] => []
  | c :: behind => '.' :: c :: behind

theorem drop_pointed (behind : Text) : (pointed behind).drop 1 = behind := by
  cases behind <;> rfl

theorem head_pointed (behind : Text) : (pointed behind).head?.any (· != '.') = false := by
  cases behind <;> rfl

theorem text_eq_pointed (count places : Nat) : text count places
    = Text.ofNat (count / Nat.pow 10 places)
      ++ pointed (decimals places (count % Nat.pow 10 places)) := by
  unfold text
  dsimp only
  cases decimals places (count % Nat.pow 10 places) with
  | nil => exact (List.append_nil _).symm
  | cons c behind => rfl

section Digits

variable {whole behind : Text}

theorem isUnsigned_pointed (hne : whole ≠ []) (hwhole : ∀ c ∈ whole, c.isDigit = true)
    (hbehind : ∀ c ∈ behind, c.isDigit = true) : IsUnsigned (whole ++ pointed behind) where
  numeric c hc := by
    rcases List.mem_append.1 hc with hc | hc
    · exact .inl (hwhole c hc)
    · cases behind with
      | nil => cases hc
      | cons d behind =>
        rcases List.mem_cons.1 hc with rfl | hc
        · exact .inr rfl
        · exact .inl (hbehind c hc)
  digit := by
    obtain ⟨c, hc⟩ := List.exists_mem_of_ne_nil whole hne
    exact ⟨c, List.mem_append_left _ hc, hwhole c hc⟩
  point := by
    have hpoint : ∀ {t : Text}, (∀ c ∈ t, c.isDigit = true) → t.count '.' = 0 := fun ht =>
      List.count_eq_zero.2 fun hmem => absurd (ht '.' hmem) (by decide)
    rw [List.count_append, hpoint hwhole]
    cases behind with
    | nil => exact Nat.zero_le 1
    | cons d behind =>
      rw [pointed, List.count_cons_self, hpoint hbehind]

theorem splitSign_pointed (negative : Bool) (hne : whole ≠ [])
    (hwhole : ∀ c ∈ whole, c.isDigit = true) (hbehind : ∀ c ∈ behind, c.isDigit = true) :
    Numeral.splitSign (Double.toText.signed negative (whole ++ pointed behind))
      = (negative, whole ++ pointed behind) := by
  cases negative
  · exact Numeral.splitSign_unsigned (isUnsigned_pointed hne hwhole hbehind)
  · rfl

/-- The digits in front of the point and those behind it are found again. -/
theorem parts_pointed (hwhole : ∀ c ∈ whole, c.isDigit = true) (behind : Text) :
    (whole ++ pointed behind).takeWhile (· != '.') = whole
      ∧ ((whole ++ pointed behind).dropWhile (· != '.')).drop 1 = behind := by
  have hpoint : ∀ c ∈ whole, (c != '.') = true := by
    intro c hc
    refine bne_iff_ne.2 ?_
    rintro rfl
    exact absurd (hwhole '.' hc) (by decide)
  rw [takeWhile_run hpoint (head_pointed behind), dropWhile_run hpoint (head_pointed behind),
    drop_pointed]
  exact ⟨rfl, rfl⟩

/-- A numeral is the fraction of its digits and a power of ten. -/
theorem read?_pointed (negative : Bool) (hne : whole ≠ [])
    (hwhole : ∀ c ∈ whole, c.isDigit = true) (hbehind : ∀ c ∈ behind, c.isDigit = true) :
    Numeral.read? (Double.toText.signed negative (whole ++ pointed behind))
      = some (nearest negative (Nat.ofDigitChars 10 (whole ++ behind) 0)
        (Nat.pow 10 behind.length)) := by
  have hdigits : whole ++ behind ≠ [] ∧ (whole ++ behind).all Char.isDigit = true := by
    refine ⟨List.append_ne_nil_of_left_ne_nil hne behind, ?_⟩
    rw [List.all_append, List.all_eq_true.2 hwhole, List.all_eq_true.2 hbehind]
    rfl
  obtain ⟨hfront, hdrop⟩ := parts_pointed hwhole behind
  rw [Numeral.read?, splitSign_pointed negative hne hwhole hbehind]
  dsimp only
  rw [hfront, hdrop, if_pos hdigits]

end Digits

variable (negative : Bool) (count places : Nat)

theorem isUnsigned_text : IsUnsigned (text count places) := by
  rw [text_eq_pointed]
  exact isUnsigned_pointed (ofNat_ne_nil _) (fun _ => isDigit_of_mem_ofNat)
    (fun _ => isDigit_of_mem_decimals (Nat.mod_lt _ (ten_pow_pos places)))

/-- The text of a decimal number is read as the double nearest to that number. -/
theorem read?_text : Numeral.read? (Double.toText.signed negative (text count places))
    = some (nearest negative count (Nat.pow 10 places)) := by
  have hrest := Nat.mod_lt count (ten_pow_pos places)
  have hvalue := ofDigitChars_decimals hrest (count / Nat.pow 10 places)
  rw [Nat.div_add_mod'] at hvalue
  rw [text_eq_pointed, read?_pointed negative (ofNat_ne_nil _) (fun _ => isDigit_of_mem_ofNat)
    (fun _ => isDigit_of_mem_decimals hrest), Nat.ofDigitChars_append, Text.ofNat,
    Nat.ofDigitChars_ten_toDigits, nearest,
    nearestBits_congr (ten_pow_pos _) (ten_pow_pos places) hvalue]
  rfl

/-- A whole multiple of a power of two is written exactly as a decimal number. -/
theorem nearestBits_exact (units places : Nat) :
    nearestBits (Decimal.mk (units * Nat.pow 5 places) (-places)).num
      (Decimal.mk (units * Nat.pow 5 places) (-places)).den
      = nearestBits units (Nat.pow 2 places) := by
  have hten : Nat.pow 5 places * Nat.pow 2 places = Nat.pow 10 places :=
    (Nat.mul_pow 5 2 places).symm
  have hnum : (Decimal.mk (units * Nat.pow 5 places) (-places)).num = units * Nat.pow 5 places := by
    rw [num, Int.toNat_neg_natCast]
    exact Nat.mul_one _
  have hden : (Decimal.mk (units * Nat.pow 5 places) (-places)).den = Nat.pow 10 places := by
    rw [den, Int.neg_neg, Int.toNat_natCast]
  rw [hnum, hden]
  refine nearestBits_congr (ten_pow_pos places) (two_pow_pos places) ?_
  rw [Nat.mul_assoc, hten]

/-- The shortest decimal number of a double is read back as that double. -/
theorem nearestBits_shortest (units : Nat) :
    nearestBits (shortest units).num (shortest units).den = nearestBits units Double.one := by
  unfold shortest
  dsimp only
  generalize hhit : List.findSome? _ _ = hit
  cases hit with
  | some d =>
    obtain ⟨further, -, hfind⟩ := List.exists_of_findSome?_eq_some hhit
    have hreads := List.find?_some hfind
    rw [readsAs, beq_iff_eq] at hreads
    exact hreads
  | none =>
    -- the exponent is made a variable, so that its powers stay unevaluated
    have hexponent : (-1074 : Int) = -(1074 : Nat) := rfl
    unfold Double.one
    rw [hexponent]
    generalize 1074 = places
    exact nearestBits_exact units places

end Decimal

namespace Double

variable {x : Float} {negative : Bool} {units : Nat}

/-- The text of a finite double is that of a decimal number with the same nearest double. -/
theorem toText_finite (negative : Bool) (units : Nat) : ∃ count places,
    toText (.finite negative units) = toText.signed negative (Decimal.text count places)
      ∧ nearestBits count (Nat.pow 10 places) = nearestBits units one := by
  cases units with
  | zero =>
    refine ⟨0, 0, rfl, nearestBits_congr (ten_pow_pos 0) one_pos ?_⟩
    rw [Nat.zero_mul, Nat.zero_mul]
  | succ units => exact ⟨_, _, rfl, Decimal.nearestBits_shortest (units + 1)⟩

theorem isUnsigned_toText (units : Nat) : IsUnsigned (toText (.finite false units)) := by
  obtain ⟨count, places, htext, -⟩ := toText_finite false units
  rw [htext]
  exact Decimal.isUnsigned_text count places

/-- The text of a finite double writes that double. -/
theorem lexeme_toText (h : ofFloat x = .finite negative units) :
    Lexeme (.number x) (toText (ofFloat x)) := by
  obtain ⟨count, places, htext, hbits⟩ := toText_finite negative units
  rw [h, htext]
  have hread := Decimal.read?_text negative count places
  rw [nearest, hbits, ← nearest, nearest_of_finite h] at hread
  refine .of_read? ?_ hread
  cases negative
  · exact .unsigned (Decimal.isUnsigned_text count places)
  · exact .signed (.inr rfl) (Decimal.isUnsigned_text count places)

end Double

end TexCalc
