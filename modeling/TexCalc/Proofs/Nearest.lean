import Mathlib
import TexCalc.Number.Double

/-!
# The nearest double

Rounding depends on the quotient alone and not on the fraction that writes it (`nearestBits_congr`),
and the magnitude of a double is rounded to that double (`nearestBits_magnitude`). A double is made
of its sign and the bits of its magnitude, so every finite double is the one nearest to its own
magnitude (`nearest_of_finite`), and the nearest double has the sign that was asked for
(`ofFloat_nearest`).
-/

namespace TexCalc

theorem roundDiv_mul_right (num den : Nat) {k : Nat} (hk : 0 < k) :
    roundDiv (num * k) (den * k) = roundDiv num den := by
  have hlt : 2 * (num % den * k) < den * k ↔ 2 * (num % den) < den := by
    rw [← Nat.mul_assoc, Nat.mul_lt_mul_right hk]
  have heq : 2 * (num % den * k) = den * k ↔ 2 * (num % den) = den := by
    rw [← Nat.mul_assoc, Nat.mul_left_inj (by omega)]
  simp only [roundDiv, Nat.mul_div_mul_right _ _ hk, Nat.mul_mod_mul_right, hlt, heq]

theorem roundDiv_congr {num den num' den' : Nat} (hden : 0 < den) (hden' : 0 < den')
    (h : num * den' = num' * den) : roundDiv num den = roundDiv num' den' := by
  rw [← roundDiv_mul_right num den hden', ← roundDiv_mul_right num' den' hden, h,
    Nat.mul_comm den den']

theorem roundDiv_one (n : Nat) : roundDiv n 1 = n := by
  rw [roundDiv, Nat.div_one, Nat.mod_one]
  rfl

theorem roundDiv_exact (n : Nat) {den : Nat} (hden : 0 < den) : roundDiv (n * den) den = n := by
  rw [roundDiv_congr hden Nat.one_pos (Nat.mul_one _), roundDiv_one]

theorem two_pow_pos (k : Nat) : 0 < Nat.pow 2 k :=
  Nat.pow_pos (by decide)

theorem log2_mul_two_pow {n : Nat} (hn : n ≠ 0) (k : Nat) :
    (n * Nat.pow 2 k).log2 = n.log2 + k := by
  have hk := two_pow_pos k
  rw [Nat.log2_eq_iff (Nat.mul_ne_zero hn hk.ne'), Nat.add_right_comm, Nat.pow_add, Nat.pow_add]
  exact ⟨Nat.mul_le_mul_right _ (Nat.log2_self_le hn),
    Nat.mul_lt_mul_of_pos_right Nat.lt_log2_self hk⟩

namespace Double

variable {num den num' den' b : Nat}

/-- The nearest double depends on the quotient alone. -/
theorem nearestBits_congr (hden : 0 < den) (hden' : 0 < den') (h : num * den' = num' * den) :
    nearestBits num den = nearestBits num' den' := by
  have hunits : num * one * den' = num' * one * den := by
    rw [Nat.mul_right_comm, h, Nat.mul_right_comm]
  have hfloor : num * one / den = num' * one / den' := by
    rw [← Nat.mul_div_mul_right _ _ hden', hunits, Nat.mul_comm den den',
      Nat.mul_div_mul_right _ _ hden]
  have hround : ∀ k, roundDiv (num * one) (den * Nat.pow 2 k)
      = roundDiv (num' * one) (den' * Nat.pow 2 k) := by
    intro k
    have hk : 0 < Nat.pow 2 k := two_pow_pos k
    refine roundDiv_congr (Nat.mul_pos hden hk) (Nat.mul_pos hden' hk) ?_
    rw [← Nat.mul_assoc, ← Nat.mul_assoc, hunits]
  simp only [nearestBits, hfloor, hround]

theorem nearestBits_le (num den : Nat) : nearestBits num den ≤ infinityBits :=
  Nat.min_le_right _ _

theorem one_pos : 0 < one := by
  unfold one
  generalize 1074 = places
  exact two_pow_pos places

/-- A whole number of units is rounded where its 53 leading bits end. -/
theorem nearestBits_units (units : Nat) : nearestBits units one
    = min ((units.log2 - 52) * Nat.pow 2 52 + roundDiv units (Nat.pow 2 (units.log2 - 52)))
      infinityBits := by
  have hround : ∀ k,
      roundDiv (units * one) (one * Nat.pow 2 k) = roundDiv units (Nat.pow 2 k) := by
    intro k
    rw [Nat.mul_comm one, roundDiv_mul_right _ _ one_pos]
  simp only [nearestBits, Nat.mul_div_cancel _ one_pos, hround]

/-- The magnitude of a finite double is the nearest one to itself. -/
theorem nearestBits_magnitude (h : b < infinityBits) : nearestBits (magnitude b) one = b := by
  have hcap : min b infinityBits = b := Nat.min_eq_left h.le
  have hdiv := Nat.div_add_mod b (Nat.pow 2 52)
  have hmod := Nat.mod_lt b (two_pow_pos 52)
  rw [nearestBits_units, magnitude]
  generalize b / Nat.pow 2 52 = exponent at *
  generalize b % Nat.pow 2 52 = rest at *
  cases exponent with
  | zero =>
    -- the places of a subnormal double are the units
    have hlog : b.log2 - 52 = 0 := by
      rcases Nat.eq_zero_or_pos b with rfl | hb
      · rfl
      have hlt : b.log2 < 52 := by
        rwa [Nat.log2_lt hb.ne', ← hdiv, Nat.mul_zero, Nat.zero_add]
      omega
    rw [if_pos rfl, hlog, Nat.zero_mul, Nat.zero_add]
    exact (congrArg (min · infinityBits) (roundDiv_one b)).trans hcap
  | succ e =>
    have hsignificand : (Nat.pow 2 52 + rest).log2 = 52 := by
      rw [Nat.log2_eq_iff (by omega), Nat.pow_succ, Nat.mul_two]
      exact ⟨Nat.le_add_right _ _, Nat.add_lt_add_left hmod _⟩
    have hlog : ((Nat.pow 2 52 + rest) * Nat.pow 2 e).log2 - 52 = e := by
      rw [log2_mul_two_pow (by omega), hsignificand, Nat.add_sub_cancel_left]
    have hsum : e * Nat.pow 2 52 + (Nat.pow 2 52 + rest) = b := by
      rw [← hdiv]
      ring
    rw [if_neg (Nat.succ_ne_zero e), Nat.add_sub_cancel, hlog,
      roundDiv_exact _ (two_pow_pos e), hsum, hcap]

section Bits

open Float.Model

variable {negative : Bool} {units : Nat}

theorem toBits_ofBits {u : UInt64} (h : u.toNat % Nat.pow 2 63 ≤ infinityBits) :
    (Float.ofBits u).toBits = u := by
  have hvalid : Format.binary64.Valid u.toBitVec := by
    refine ⟨fun hexponent hsignificand => absurd ?_ hsignificand⟩
    have he := congrArg BitVec.toNat hexponent
    rw [← BitVec.toNat_inj]
    simp only [UnpackedFloat.unpackExponent, UnpackedFloat.unpackMantissa, BitVec.toNat_cast,
      BitVec.extractLsb_toNat, Format.binary64, Nat.shiftRight_eq_div_pow, UInt64.toNat_toBitVec,
      BitVec.toNat_ofNat, BitVec.toNat_neg, infinityBits, Nat.pow_eq] at he h ⊢
    have hu := u.toNat_lt
    omega
  exact UInt64.toBitVec_inj.1 (UnpackedFloat.pack_unpack_of_valid hvalid)

/-- The sign bit stands above the bits of the magnitude, and both are found again. -/
theorem exists_signBits (negative : Bool) (h : b ≤ infinityBits) :
    ∃ bits, (if negative then Nat.pow 2 63 + b else b) = bits ∧ bits < Nat.pow 2 64
      ∧ bits % Nat.pow 2 63 = b ∧ (Nat.pow 2 63 ≤ bits ↔ negative = true) := by
  refine ⟨_, rfl, ?_⟩
  have hlt : b < Nat.pow 2 63 := h.trans_lt (by decide)
  simp only [Nat.pow_eq] at hlt
  cases negative <;>
    simp only [Bool.false_eq_true, reduceIte, Nat.pow_eq, iff_false, iff_true] <;> omega

theorem toBits_ofSignBits (h : b ≤ infinityBits) :
    (ofSignBits negative b).toBits.toNat = if negative then Nat.pow 2 63 + b else b := by
  obtain ⟨bits, hbits, hlt, hrest, -⟩ := exists_signBits negative h
  have htoNat : (UInt64.ofNat bits).toNat = bits := UInt64.toNat_ofNat_of_lt' hlt
  rw [ofSignBits, hbits, toBits_ofBits, htoNat]
  rwa [htoNat, hrest]

theorem ofFloat_ofSignBits (h : b ≤ infinityBits) : ofFloat (ofSignBits negative b)
      = if b = infinityBits then .infinite negative else .finite negative (magnitude b) := by
  obtain ⟨bits, hbits, -, hrest, hsign⟩ := exists_signBits negative h
  simp only [ofFloat, toBits_ofSignBits h, hbits, hrest, hsign, Bool.decide_eq_true,
    if_neg h.not_gt]

/-- A double is made of its sign bit and the bits below it. -/
theorem ofSignBits_toBits (x : Float) : ofSignBits (decide (Nat.pow 2 63 ≤ x.toBits.toNat))
    (x.toBits.toNat % Nat.pow 2 63) = x := by
  have hlt := x.toBits.toNat_lt
  have hbits : (if decide (Nat.pow 2 63 ≤ x.toBits.toNat) = true
      then Nat.pow 2 63 + x.toBits.toNat % Nat.pow 2 63 else x.toBits.toNat % Nat.pow 2 63)
      = x.toBits.toNat := by
    simp only [decide_eq_true_eq, Nat.pow_eq]
    split <;> omega
  rw [ofSignBits, hbits, UInt64.ofNat_toNat, Float.ofBits_toBits]

theorem exists_of_finite {x : Float} (h : ofFloat x = .finite negative units) :
    ∃ b, b < infinityBits ∧ magnitude b = units ∧ ofSignBits negative b = x := by
  unfold ofFloat at h
  dsimp only at h
  split at h
  · cases h
  · split at h
    · cases h
    · injection h with hsign hunits
      subst hsign hunits
      exact ⟨_, by omega, rfl, ofSignBits_toBits x⟩

/-- Every finite double is the one nearest to its own magnitude. -/
theorem nearest_of_finite {x : Float} (h : ofFloat x = .finite negative units) :
    nearest negative units one = x := by
  obtain ⟨b, hb, rfl, rfl⟩ := exists_of_finite h
  rw [nearest, nearestBits_magnitude hb]

/-- The nearest double has the sign that was asked for. -/
theorem ofFloat_nearest (negative : Bool) (num den : Nat) :
    ofFloat (nearest negative num den) = .infinite negative
      ∨ ∃ units, ofFloat (nearest negative num den) = .finite negative units := by
  rw [nearest, ofFloat_ofSignBits (nearestBits_le num den)]
  split
  · exact .inl rfl
  · exact .inr ⟨_, rfl⟩

end Bits

end Double

end TexCalc
