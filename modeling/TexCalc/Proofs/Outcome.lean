import TexCalc.Expr

/-!
# The outcome of an expression

A double compares equal to zero only if it is one of the two zeros (`beq_zero_iff`), so the checked
arithmetic fails exactly where `Expr.Yields` says that it does. An expression yields one outcome,
its value or its first failure (`Expr.yields_iff`).
-/

namespace TexCalc

section Zero

open Float.Model

theorem eq_of_toBits_eq : ∀ {x y : Float}, x.toModel.toBits = y.toModel.toBits → x = y
  | ⟨⟨_, _⟩⟩, ⟨⟨_, _⟩⟩, rfl => rfl

theorem eq_zero_of_compare {u : UnpackedFloat} {s : UnpackedFloat.Sign}
    (h : u.compare (.zero s) = some .eq) : ∃ s', u = .zero s' := by
  cases u with
  | zero s' => exact ⟨s', rfl⟩
  | notANumber => cases h
  | infinity s' => cases s' <;> cases h
  | finite s' => cases s' <;> cases h

/-- Where exponent and significand are zero only the sign is left. -/
theorem bits_of_unpack_zero {b : BitVec 64} {s : UnpackedFloat.Sign}
    (h : UnpackedFloat.unpack .binary64 b = .zero s) : b = 0#64 ∨ b = 0x8000000000000000#64 := by
  unfold UnpackedFloat.unpack at h
  dsimp only at h
  by_cases hones : @UnpackedFloat.unpackExponent .binary64 b = -1#11
  · rw [if_pos hones] at h
    split at h <;> cases h
  rw [if_neg hones] at h
  by_cases hexponent : @UnpackedFloat.unpackExponent .binary64 b = 0#11
  case neg =>
    rw [if_neg hexponent] at h
    cases h
  rw [if_pos hexponent] at h
  by_cases hsignificand : @UnpackedFloat.unpackMantissa .binary64 b = 0#52
  case neg =>
    rw [dif_neg hsignificand] at h
    cases h
  have he : (@UnpackedFloat.unpackExponent .binary64 b).toNat = 0 := by
    rw [hexponent]
    rfl
  have hm : (@UnpackedFloat.unpackMantissa .binary64 b).toNat = 0 := by
    rw [hsignificand]
    rfl
  simp only [UnpackedFloat.unpackExponent, UnpackedFloat.unpackMantissa, BitVec.toNat_cast,
    BitVec.extractLsb_toNat, Format.binary64, Nat.shiftRight_eq_div_pow] at he hm
  have hb := b.isLt
  simp only [← BitVec.toNat_inj, BitVec.toNat_ofNat]
  omega

theorem beq_zero_iff (y : Float) : (y == 0) = true ↔ y = 0 ∨ y = -0 := by
  refine ⟨fun h => ?_, by rintro (rfl | rfl) <;> decide +kernel⟩
  have hzero : (0 : Float).toModel.unpack = .zero .positive := rfl
  change (y.toModel.unpack.compare (0 : Float).toModel.unpack == some .eq) = true at h
  rw [hzero, beq_iff_eq] at h
  obtain ⟨s, hs⟩ := eq_zero_of_compare h
  rcases bits_of_unpack_zero hs with hb | hb
  · exact .inl (eq_of_toBits_eq (UInt64.toBitVec_inj.1 (hb.trans (by decide +kernel))))
  · exact .inr (eq_of_toBits_eq (UInt64.toBitVec_inj.1 (hb.trans (by decide +kernel))))

end Zero

namespace Operator

theorem perform_zero {x y : Float} (zero : y = 0 ∨ y = -0) :
    Operator.divide.perform x y = .error .divisionByZero :=
  if_pos ⟨rfl, (beq_zero_iff y).2 zero⟩

theorem perform_allowed {op : Operator} {x y : Float}
    (allowed : ¬(op = .divide ∧ (y = 0 ∨ y = -0))) : op.perform x y = .ok (op.apply x y) := by
  rw [← beq_zero_iff] at allowed
  exact if_neg allowed

end Operator

namespace Func

theorem perform_negative {x : Float} (negative : x < 0) :
    Func.sqrt.perform x = .error (.negativeRoot x) :=
  if_pos ⟨rfl, negative⟩

theorem perform_allowed {f : Func} {x : Float} (allowed : ¬(f = .sqrt ∧ x < 0)) :
    f.perform x = .ok (f.apply x) :=
  if_neg allowed

end Func

namespace Expr

theorem eval_eq_of_yields {e : Expr} {outcome : Except Failure Float} (h : e.Yields outcome) :
    e.eval = outcome := by
  induction h with
  | number x => rfl
  | constant k => rfl
  | leftFails _ ihl => rw [eval, ihl]; rfl
  | rightFails _ _ ihl ihr => rw [eval, ihl, ihr]; rfl
  | zeroDivisor _ _ zero ihl ihr => rw [eval, ihl, ihr]; exact Operator.perform_zero zero
  | operation _ _ allowed ihl ihr => rw [eval, ihl, ihr]; exact Operator.perform_allowed allowed
  | argumentFails _ iha => rw [eval, iha]; rfl
  | negativeRoot _ negative iha => rw [eval, iha]; exact Func.perform_negative negative
  | call _ allowed iha => rw [eval, iha]; exact Func.perform_allowed allowed

theorem yields_eval : ∀ e : Expr, e.Yields e.eval
  | .number x => .number x
  | .constant k => .constant k
  | .operation op left right => by
    have hl := yields_eval left
    have hr := yields_eval right
    rw [eval]
    rcases hx : left.eval with cause | x <;> rw [hx] at hl
    · exact .leftFails hl
    rcases hy : right.eval with cause | y <;> rw [hy] at hr
    · exact .rightFails hl hr
    by_cases h : op = .divide ∧ (y = 0 ∨ y = -0)
    · obtain ⟨rfl, zero⟩ := h
      change Yields _ (Operator.divide.perform x y)
      rw [Operator.perform_zero zero]
      exact .zeroDivisor hl hr zero
    · change Yields _ (op.perform x y)
      rw [Operator.perform_allowed h]
      exact .operation hl hr h
  | .call f argument => by
    have ha := yields_eval argument
    rw [eval]
    rcases hx : argument.eval with cause | x <;> rw [hx] at ha
    · exact .argumentFails ha
    by_cases h : f = .sqrt ∧ x < 0
    · obtain ⟨rfl, negative⟩ := h
      change Yields _ (Func.sqrt.perform x)
      rw [Func.perform_negative negative]
      exact .negativeRoot ha negative
    · change Yields _ (f.perform x)
      rw [Func.perform_allowed h]
      exact .call ha h

/-- An expression yields its value, or else its first failure, and nothing else. -/
theorem yields_iff {e : Expr} {outcome : Except Failure Float} :
    e.Yields outcome ↔ e.eval = outcome :=
  ⟨eval_eq_of_yields, fun h => h ▸ yields_eval e⟩

end Expr

end TexCalc
