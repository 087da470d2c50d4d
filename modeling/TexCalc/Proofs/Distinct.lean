import Mathlib
import TexCalc.Proofs.Shown
import TexCalc.Proofs.Spacing
import TexCalc.Session.Basic

/-!
# Different results are told apart

With the most decimals a result can be shown with, the text of a double identifies its value, apart
from the magnitudes between the least plain one and a sixteenth. From a sixteenth on the doubles are
multiples of `2 ^ -56`, which is more than the step `10 ^ -17` of the last decimal
(`eq_of_rounds_plain`). Behind an exponent the step is at most a `10 ^ 17`th of the value, and the
doubles are apart by more than a `2 ^ 53`th of it (`eq_of_rounds_scientific`).
-/

namespace TexCalc.Display

open Double (value?)

variable {x y : Float} {q p r : ℚ} {t t' : Text}

/-- The values outside the gap where the doubles are closer than the last decimal: zero, those that
are too small to be plain, and those from a sixteenth on. -/
def OutsideGap (q : ℚ) : Prop :=
  q = 0 ∨ (∃ low ∈ value? 1e-6, |q| < low) ∨ 1 / 16 ≤ |q|

theorem OutsideGap.exists_eq_div (hx : value? x = some q) (hgap : OutsideGap q)
    (hplain : InPlainRange q) : ∃ n : ℤ, q = n / 2 ^ 56 := by
  rcases hgap with rfl | ⟨low, hlow, hlt⟩ | hlarge
  · exact ⟨0, by simp⟩
  · rcases hplain with rfl | ⟨⟨low', hlow', hle⟩, -⟩
    · exact ⟨0, by simp⟩
    · obtain rfl := Option.mem_unique hlow hlow'
      exact absurd hlt hle.not_gt
  · exact Double.exists_eq_div_two_pow hx hlarge

theorem eq_of_rounds_plain (hq : ∃ n : ℤ, q = n / 2 ^ 56) (hp : ∃ n : ℤ, p = n / 2 ^ 56)
    (h : Rounds (1 / 10 ^ 17) q r) (h' : Rounds (1 / 10 ^ 17) p r) : q = p := by
  have hclose := h.le_half (by positivity)
  have hclose' := h'.le_half (by positivity)
  obtain ⟨n, rfl⟩ := hq
  obtain ⟨m, rfl⟩ := hp
  have hapart : |(n : ℚ) / 2 ^ 56 - m / 2 ^ 56| ≤ 1 / 10 ^ 17 := by
    refine (abs_sub_le _ r _).trans ?_
    rw [abs_sub_comm r]
    linarith
  have hlt : |(n : ℚ) - m| < 1 := by
    rw [← sub_div, abs_div, abs_of_pos (by positivity : (0 : ℚ) < 2 ^ 56),
      div_le_iff₀ (by positivity)] at hapart
    exact hapart.trans_lt (by norm_num)
  have hsub : |n - m| < 1 := by exact_mod_cast hlt
  rw [sub_eq_zero.1 (Int.abs_lt_one_iff.1 hsub)]

theorem abs_sub_le_of_leading {digits : ℕ} {e : ℤ} (hleading : 10 ^ e ≤ |q|)
    (h : Rounds (10 ^ (e - digits)) q r) : |q - r| ≤ |q| / 10 ^ digits / 2 := by
  refine (h.le_half (by positivity)).trans ?_
  rw [zpow_sub₀ (by norm_num), zpow_natCast]
  gcongr

theorem not_abs_lt (hx : value? x = some q) (hy : value? y = some p)
    (h : |q - r| ≤ |q| / 10 ^ 17 / 2) (h' : |p - r| ≤ |p| / 10 ^ 17 / 2) : ¬|q| < |p| := by
  intro hlt
  have hspacing := Double.abs_lt_mul_sub hx hy hlt
  have hapart : |p| - |q| ≤ |p| / 10 ^ 17 / 2 + |q| / 10 ^ 17 / 2 := by
    refine (abs_sub_abs_le_abs_sub p q).trans ((abs_sub_le p r q).trans ?_)
    rw [abs_sub_comm r]
    exact add_le_add h' h
  norm_num at hspacing hapart
  linarith

theorem eq_of_rounds_scientific {e e' : ℤ} (hx : value? x = some q) (hy : value? y = some p)
    (hq : 10 ^ e ≤ |q|) (hp : 10 ^ e' ≤ |p|) (h : Rounds (10 ^ (e - (17 : ℕ))) q r)
    (h' : Rounds (10 ^ (e' - (17 : ℕ))) p r) : q = p := by
  have hclose := abs_sub_le_of_leading hq h
  have hclose' := abs_sub_le_of_leading hp h'
  have habs : |q| = |p| :=
    le_antisymm (not_lt.1 (not_abs_lt hy hx hclose' hclose))
      (not_lt.1 (not_abs_lt hx hy hclose hclose'))
  rcases abs_eq_abs.1 habs with heq | rfl
  · exact heq
  · -- on both sides of zero they would be apart by twice their magnitude
    have hpos : (0 : ℚ) < |p| := lt_of_lt_of_le (by positivity) hp
    have hapart : |p + p| ≤ |p| / 10 ^ 17 := by
      have htriangle := abs_sub_le p r (-p)
      rw [sub_neg_eq_add, abs_sub_comm r] at htriangle
      rw [abs_neg] at hclose
      linarith
    rw [← two_mul, abs_mul, abs_two] at hapart
    norm_num at hapart
    linarith

theorem eq_of_shows (hx : value? x = some q) (hy : value? y = some p) (hq : OutsideGap q)
    (hp : OutsideGap p) (h : Shows maxDigits q t) (h' : Shows maxDigits p t') (ht : t = t') :
    q = p := by
  cases h with
  | plain range rounded text =>
    cases h' with
    | plain range' rounded' text' =>
      obtain rfl := text.number_unique (ht ▸ text')
      exact eq_of_rounds_plain (hq.exists_eq_div hx range) (hp.exists_eq_div hy range') rounded
        rounded'
    | scientific => exact absurd ht text.ne_scientific
  | scientific _ leading rounded _ _ mantissaText exponentText =>
    cases h' with
    | plain _ _ text' => exact absurd ht.symm text'.ne_scientific
    | scientific _ leading' rounded' _ _ mantissaText' exponentText' =>
      obtain ⟨hmantissa, hexponent⟩ := mantissaText.scientific_inj mantissaText' ht
      obtain rfl := mantissaText.number_unique (hmantissa ▸ mantissaText')
      have hk := exponentText.number_unique (hexponent ▸ exponentText')
      rw [Int.cast_inj.1 hk] at rounded
      exact eq_of_rounds_scientific hx hy leading.1 leading'.1 rounded rounded'

/-- With the most decimals two doubles outside the gap have the same text exactly if they have the
same value. -/
theorem result_eq_iff (hx : value? x = some q) (hy : value? y = some p) (hq : OutsideGap q)
    (hp : OutsideGap p) : result x maxDigits = result y maxDigits ↔ q = p := by
  have hshows := shows_result hx maxDigits
  have hshows' := shows_result hy maxDigits
  constructor
  · exact eq_of_shows hx hy hq hp hshows hshows'
  · rintro rfl
    exact hshows.unique hshows'

/-- The sum of a tenth and two tenths is not shown as three tenths. -/
theorem result_three_tenths : ∃ q p, value? 0.3 = some q ∧ value? 0.30000000000000004 = some p
    ∧ OutsideGap q ∧ OutsideGap p ∧ q ≠ p
    ∧ result 0.3 maxDigits ≠ result 0.30000000000000004 maxDigits := by
  obtain ⟨units, units', hfloat, hfloat', hlarge, hlt⟩ : ∃ units units',
      Double.ofFloat 0.3 = .finite false units
      ∧ Double.ofFloat 0.30000000000000004 = .finite false units'
      ∧ Double.one ≤ units * 16 ∧ units < units' :=
    ⟨Double.magnitude 0x3fd3333333333333, Double.magnitude 0x3fd3333333333334, by decide +kernel⟩
  have hx := Double.value?_eq_some_iff.2 ⟨false, units, hfloat, rfl⟩
  have hy := Double.value?_eq_some_iff.2 ⟨false, units', hfloat', rfl⟩
  have hq : ∀ n, units ≤ n → OutsideGap (Double.value false n) := by
    intro n hn
    refine .inr (.inr ?_)
    rw [Double.abs_value, div_le_div_iff₀ (by norm_num) Double.one_cast_pos, one_mul]
    exact_mod_cast hlarge.trans (Nat.mul_le_mul_right 16 hn)
  have hne : Double.value false units ≠ Double.value false units' := by
    have hvalue : Double.value false units < Double.value false units' :=
      div_lt_div_of_pos_right (Nat.cast_lt.2 hlt) Double.one_cast_pos
    exact hvalue.ne
  exact ⟨_, _, hx, hy, hq _ le_rfl, hq _ hlt.le, hne,
    mt (result_eq_iff hx hy (hq _ le_rfl) (hq _ hlt.le)).1 hne⟩

/-- Below a sixteenth there are doubles with one text. -/
example : (0.03125000000000001 : Float).toBits ≠ (0.031250000000000014 : Float).toBits
    ∧ result 0.03125000000000001 maxDigits = result 0.031250000000000014 maxDigits := by
  decide +kernel

end TexCalc.Display
