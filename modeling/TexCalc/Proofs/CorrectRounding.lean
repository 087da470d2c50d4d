import Mathlib
import TexCalc.Proofs.Spacing

/-!
# Numbers are rounded correctly

Of all finite doubles the one that is found for a quotient is the nearest, and of two equally near
the one with even bits (`isNearest_nearest`). The significand is rounded where its 53 bits end, so
no other multiple of that power of two is nearer; and the doubles that are no multiples of it stand
below all numbers with so many bits (`magnitude_nearest`). One double only is the nearest
(`IsNearest.unique`).
-/

namespace TexCalc.Double

section Magnitude

variable {num den : ℕ}

theorem leading_bits (n : ℕ) : n < 2 ^ 53 * 2 ^ (n.log2 - 52)
    ∧ (n.log2 - 52 = 0 ∨ 2 ^ 52 * 2 ^ (n.log2 - 52) ≤ n) := by
  rw [← pow_add, ← pow_add]
  rcases Nat.eq_zero_or_pos (n.log2 - 52) with hlow | hlow
  · refine ⟨?_, .inl hlow⟩
    exact Nat.lt_log2_self.trans_le (Nat.pow_le_pow_right (by decide) (by omega))
  · have hn : n ≠ 0 := by
      rintro rfl
      exact hlow.ne' rfl
    rw [show 53 + (n.log2 - 52) = n.log2 + 1 by omega, show 52 + (n.log2 - 52) = n.log2 by omega]
    exact ⟨Nat.lt_log2_self, .inr (Nat.log2_self_le hn)⟩

theorem scaled_div (units den k : ℕ) :
    (units : ℚ) / (den * Nat.pow 2 k : ℕ) = units / den / 2 ^ k := by
  rw [Nat.cast_mul, Nat.pow_eq, Nat.cast_pow, Nat.cast_ofNat, div_div]

/-- The significand that is rounded has 53 bits, and the leading one is set unless the double is
subnormal. -/
theorem roundDiv_significand {units k : ℕ} (hden : 0 < den) (hk : (units / den).log2 - 52 = k) :
    roundDiv units (den * Nat.pow 2 k) ≤ 2 ^ 53
      ∧ (k = 0 ∨ 2 ^ 52 * 2 ^ k ≤ (units : ℚ) / den
        ∧ 2 ^ 52 ≤ roundDiv units (den * Nat.pow 2 k)) := by
  obtain ⟨hbelow, habove⟩ := leading_bits (units / den)
  rw [hk] at hbelow habove
  have hpos : (0 : ℚ) < den := by exact_mod_cast hden
  have hstep : (0 : ℚ) < 2 ^ k := by positivity
  have hden' : 0 < den * Nat.pow 2 k := Nat.mul_pos hden (two_pow_pos k)
  constructor
  · have hlt : (units : ℚ) < 2 ^ 53 * 2 ^ k * den := by
      exact_mod_cast (Nat.div_lt_iff_lt_mul hden).1 hbelow
    refine roundDiv_le hden' ?_
    rw [scaled_div, div_le_iff₀ hstep, div_le_iff₀ hpos]
    exact_mod_cast hlt.le
  · refine habove.imp_right fun h => ?_
    have hle : 2 ^ 52 * 2 ^ k ≤ (units : ℚ) / den := by
      rw [le_div_iff₀ hpos]
      exact_mod_cast (Nat.le_div_iff_mul_le hden).1 h
    refine ⟨hle, le_roundDiv hden' ?_⟩
    rw [scaled_div, le_div_iff₀ hstep]
    exact_mod_cast hle

theorem nearestBits_lt_infinityBits {j : ℕ} (hden : 0 < den) (hnum : num < 2 ^ j * den)
    (hj : j < 1024) : nearestBits num den < infinityBits := by
  have hlog : (num * one / den).log2 < j + 1074 := by
    unfold one
    obtain ⟨p, hp⟩ : ∃ p, p = 1074 := ⟨_, rfl⟩
    rw [← hp]
    rcases eq_or_ne (num * Nat.pow 2 p / den) 0 with hzero | hzero
    · rw [hzero, Nat.log2_zero]
      omega
    · rw [Nat.log2_lt hzero, Nat.div_lt_iff_lt_mul hden, pow_add, mul_right_comm]
      exact Nat.mul_lt_mul_of_pos_right hnum (two_pow_pos p)
  obtain ⟨hs, -⟩ := @roundDiv_significand den (num * one) _ hden rfl
  unfold nearestBits
  dsimp only
  refine min_lt_of_left_lt ?_
  generalize roundDiv _ _ = s at hs ⊢
  generalize (num * one / den).log2 = log at hlog ⊢
  unfold infinityBits
  simp only [Nat.pow_eq]
  omega

/-- The magnitude that is found is the number rounded to a multiple of so many units, a power of
two of them. If they are more than one, the number has at least `2 ^ 52` times as many. -/
theorem exists_rounds (hden : 0 < den) (hfinite : nearestBits num den < infinityBits) :
    ∃ k s, nearestBits num den = k * 2 ^ 52 + s
      ∧ magnitude (nearestBits num den) = s * 2 ^ k
      ∧ Rounds (2 ^ k) ((num : ℚ) / den * one) (s * 2 ^ k)
      ∧ (k = 0 ∨ 2 ^ 52 * 2 ^ k ≤ (num : ℚ) / den * one) := by
  obtain ⟨k, hk⟩ : ∃ k, (num * one / den).log2 - 52 = k := ⟨_, rfl⟩
  obtain ⟨hs, hlow⟩ := roundDiv_significand hden hk
  have hbits : nearestBits num den
      = k * 2 ^ 52 + roundDiv (num * one) (den * Nat.pow 2 k) := by
    unfold nearestBits at hfinite ⊢
    simp only [hk, Nat.pow_eq] at hfinite ⊢
    omega
  have hunits : (num : ℚ) / den * one = (num * one : ℕ) / den := by
    rw [Nat.cast_mul]
    exact div_mul_eq_mul_div _ _ _
  have hstep : (0 : ℚ) < 2 ^ k := by positivity
  have hrounds := rounds_roundDiv (num * one) (Nat.mul_pos hden (two_pow_pos k)) hstep
  rw [scaled_div, div_mul_cancel₀ _ hstep.ne'] at hrounds
  rw [hbits, hunits]
  exact ⟨k, _, rfl, magnitude_significand hs (hlow.imp_right And.right), hrounds,
    hlow.imp_right And.left⟩

/-- No magnitude is nearer, and of two equally near the one with even bits is found. -/
theorem magnitude_nearest (hden : 0 < den) (hfinite : nearestBits num den < infinityBits) (b : ℕ) :
    |(num : ℚ) / den * one - magnitude (nearestBits num den)| ≤ |(num : ℚ) / den * one - magnitude b|
      ∧ (|(num : ℚ) / den * one - magnitude b|
          = |(num : ℚ) / den * one - magnitude (nearestBits num den)| →
        magnitude b = magnitude (nearestBits num den) ∨ Even (nearestBits num den)) := by
  obtain ⟨k, s, hbits, hmagnitude, ⟨n, hn, hnear⟩, hlow⟩ := exists_rounds hden hfinite
  generalize (num : ℚ) / den * one = u at *
  have hstep : (0 : ℚ) < 2 ^ k := by positivity
  obtain rfl : n = s := by
    have := mul_right_cancel₀ hstep.ne' hn
    exact_mod_cast this.symm
  rw [hmagnitude, Nat.cast_mul, Nat.cast_pow, Nat.cast_ofNat]
  by_cases hgrid : 2 ^ k ∣ magnitude b
  · obtain ⟨m, hm⟩ := hgrid
    have hvalue : (magnitude b : ℚ) = (m : ℤ) * 2 ^ k := by
      rw [hm, Nat.cast_mul, Nat.cast_pow, mul_comm]
      rfl
    rw [hvalue]
    refine ⟨(hnear m).1, fun htie => ((hnear m).2 htie).imp (fun h => ?_) fun h => ?_⟩
    · rw [hm, mul_comm, Nat.cast_inj.1 h]
    · rw [hbits]
      exact ((by decide : Even (2 ^ 52)).mul_left k).add (by exact_mod_cast h)
  · -- the least multiple with so many bits stands between that double and the number
    have hlt : (magnitude b : ℚ) < 2 ^ 52 * 2 ^ k := by
      have hnat := not_le.1 fun h => hgrid (two_pow_dvd_magnitude h)
      exact_mod_cast hnat
    have hle : 2 ^ 52 * 2 ^ k ≤ u := by
      refine hlow.resolve_left ?_
      rintro rfl
      exact hgrid (one_dvd _)
    have hnearer := (hnear (2 ^ 52)).1
    rw [Int.cast_pow, Int.cast_ofNat, abs_of_nonneg (sub_nonneg.2 hle)] at hnearer
    have hfar : |u - s * 2 ^ k| < |u - magnitude b| := by
      rw [abs_of_pos (sub_pos.2 (hlt.trans_le hle))]
      exact hnearer.trans_lt (by linarith)
    exact ⟨hfar.le, fun htie => absurd htie hfar.ne'⟩

end Magnitude

section Nearest

variable {r : ℚ} {y y' : Float} {num den : ℕ}

/-- `IsNearest r y`: of the finite doubles `y` is the nearest to `r`, and of two equally near the
one with even bits. It has the sign of `r`, so only a negative number may become a negative zero. -/
structure IsNearest (r : ℚ) (y : Float) : Prop where
  sign : ∃ units, ofFloat y = .finite (decide (r < 0)) units
  nearest : ∀ v ∈ value? y, ∀ z, ∀ w ∈ value? z, |r - v| ≤ |r - w|
  tie : ∀ v ∈ value? y, ∀ z, ∀ w ∈ value? z, |r - w| = |r - v| → w = v ∨ Even y.toBits.toNat

theorem abs_sub_units (magnitude : ℚ) (units : ℕ) :
    |magnitude - units / one| = |magnitude * one - units| / one := by
  have hone := one_cast_pos
  rw [sub_div' hone.ne', abs_div, abs_of_pos hone]

theorem abs_sub_value (r : ℚ) (units : ℕ) :
    |r - value (decide (r < 0)) units| = |(|r|) - units / one| := by
  rcases lt_or_ge r 0 with hr | hr
  · rw [decide_eq_true hr, value, if_pos rfl, abs_of_neg hr, ← abs_neg]
    ring_nf
  · rw [decide_eq_false hr.not_gt, value, if_neg Bool.false_ne_true, abs_of_nonneg hr]

theorem le_abs_sub_value (r : ℚ) (negative : Bool) (units : ℕ) :
    |(|r|) - units / one| ≤ |r - value negative units| := by
  rw [← abs_value negative]
  exact abs_abs_sub_abs_le r _

theorem even_toBits_iff {b : ℕ} (negative : Bool) (h : b ≤ infinityBits) :
    Even (ofSignBits negative b).toBits.toNat ↔ Even b := by
  rw [toBits_ofSignBits h]
  split
  · rw [Nat.even_add, iff_true_left (by decide : Even (Nat.pow 2 63))]
  · rfl

theorem value_eq_of_tie {negative : Bool} {units : ℕ}
    (hzero : |r - value (decide (r < 0)) units| ≤ |r|)
    (htie : |r - value negative units| = |r - value (decide (r < 0)) units|) :
    value negative units = value (decide (r < 0)) units := by
  have hsides : |value negative units| = |value (decide (r < 0)) units| := by
    rw [abs_value, abs_value]
  generalize value (decide (r < 0)) units = v at *
  rcases abs_eq_abs.1 hsides with hw | hw
  · exact hw
  -- a double and its opposite are as far from the number only where both are zero
  · have hv : v = 0 := by
      rw [hw, sub_neg_eq_add] at htie
      rcases abs_eq_abs.1 htie with h | h
      · linarith
      · obtain rfl : r = 0 := by linarith
        rw [zero_sub, abs_neg, abs_zero] at hzero
        exact abs_nonpos_iff.1 hzero
    rw [hw, hv, neg_zero]

theorem isNearest_nearest (hden : 0 < den) (habs : |r| = (num : ℚ) / den)
    (hfinite : nearestBits num den < infinityBits) :
    IsNearest r (nearest (decide (r < 0)) num den) := by
  have hfloat : ofFloat (nearest (decide (r < 0)) num den)
      = .finite (decide (r < 0)) (magnitude (nearestBits num den)) := by
    rw [nearest, ofFloat_ofSignBits hfinite.le, if_neg hfinite.ne]
  have hvalue := value?_ofSignBits (decide (r < 0)) hfinite
  have hdistance : ∀ b, |(|r|) - magnitude b / one| = |(num : ℚ) / den * one - magnitude b| / one :=
    fun b => by rw [abs_sub_units, habs]
  have hself := abs_sub_value r (magnitude (nearestBits num den))
  have hle : ∀ b, |r - value (decide (r < 0)) (magnitude (nearestBits num den))|
      ≤ |(|r|) - magnitude b / one| := by
    intro b
    rw [hself, hdistance, hdistance]
    exact div_le_div_of_nonneg_right (magnitude_nearest hden hfinite b).1 one_cast_pos.le
  have hnear : ∀ z, ∀ w ∈ value? z,
      |r - value (decide (r < 0)) (magnitude (nearestBits num den))| ≤ |r - w| := by
    intro z w hw
    obtain ⟨negative, b, -, -, rfl⟩ := exists_bits hw
    exact (hle b).trans (le_abs_sub_value r negative _)
  refine ⟨⟨_, hfloat⟩, fun v hv z w hw => ?_, fun v hv z w hw htie => ?_⟩
  · obtain rfl := Option.mem_unique hv hvalue
    exact hnear z w hw
  · obtain rfl := Option.mem_unique hv hvalue
    obtain ⟨negative, b, -, -, rfl⟩ := exists_bits hw
    have hmagnitudes : |(|r|) - magnitude b / one|
        = |(|r|) - magnitude (nearestBits num den) / one| := by
      refine le_antisymm ?_ ?_
      · rw [← hself, ← htie]
        exact le_abs_sub_value r negative _
      · rw [← hself]
        exact hle b
    rw [hdistance, hdistance, div_left_inj' one_cast_pos.ne'] at hmagnitudes
    rcases (magnitude_nearest hden hfinite b).2 hmagnitudes with hmagnitude | heven
    · rw [hmagnitude] at htie ⊢
      exact .inl (value_eq_of_tie (by simpa using hnear 0 0 value?_zero) htie)
    · exact .inr ((even_toBits_iff _ hfinite.le).2 heven)

theorem IsNearest.not_bits_lt {b b' : ℕ} (hb' : b' < infinityBits)
    (h : IsNearest r (ofSignBits (decide (r < 0)) b))
    (h' : IsNearest r (ofSignBits (decide (r < 0)) b')) : ¬b < b' := by
  intro hlt
  have hb := hlt.trans hb'
  have hv := value?_ofSignBits (decide (r < 0)) hb
  have hv' := value?_ofSignBits (decide (r < 0)) hb'
  have hmiddle := le_antisymm (h'.nearest _ hv' _ _ hv) (h.nearest _ hv _ _ hv')
  have hapart : ∀ {c c' : ℕ}, c < c' → (magnitude c : ℚ) / one < magnitude c' / one := fun hc =>
    div_lt_div_of_pos_right (Nat.cast_lt.2 (strictMono_magnitude hc)) one_cast_pos
  have hne : value (decide (r < 0)) (magnitude b) ≠ value (decide (r < 0)) (magnitude b') := by
    intro heq
    have habs := congrArg abs heq
    rw [abs_value, abs_value] at habs
    exact (hapart hlt).ne habs
  -- a tie needs even bits on both sides, and the double between those is nearer to the middle
  have heven := (even_toBits_iff _ hb.le).1 ((h.tie _ hv _ _ hv' hmiddle).resolve_left hne.symm)
  have heven' := (even_toBits_iff _ hb'.le).1 ((h'.tie _ hv' _ _ hv hmiddle.symm).resolve_left hne)
  have hnext : b + 1 < b' := by
    rcases heven with ⟨i, rfl⟩
    rcases heven' with ⟨j, rfl⟩
    omega
  have hnearer := h.nearest _ hv _ _ (value?_ofSignBits (decide (r < 0)) (hnext.trans hb'))
  rw [abs_sub_value, abs_sub_value] at hmiddle hnearer
  have hlow := hapart (Nat.lt_succ_self b)
  have hhigh := hapart hnext
  rcases abs_eq_abs.1 hmiddle with heq | heq
  · linarith
  · have hleft : (0 : ℚ) ≤ |r| - magnitude b / one := by linarith
    rw [abs_of_nonneg hleft] at hnearer
    exact absurd hnearer (not_le.2 (abs_lt.2 ⟨by linarith, by linarith⟩))

/-- One double only is the nearest to a number. -/
theorem IsNearest.unique (h : IsNearest r y) (h' : IsNearest r y') : y = y' := by
  obtain ⟨units, hy⟩ := h.sign
  obtain ⟨units', hy'⟩ := h'.sign
  obtain ⟨b, hb, -, rfl⟩ := exists_of_finite hy
  obtain ⟨b', hb', -, rfl⟩ := exists_of_finite hy'
  rw [Nat.le_antisymm (not_lt.1 (h'.not_bits_lt hb h)) (not_lt.1 (h.not_bits_lt hb' h'))]

end Nearest

end TexCalc.Double
