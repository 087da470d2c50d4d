import TexCalc.Evaluation
import TexCalc.Proofs.Infix
import TexCalc.Proofs.Program
import TexCalc.Proofs.Reading

/-!
# Evaluation agrees with the expression

A text that writes an expression without bare functions, however its tokens are spaced, evaluates to
what the expression yields: the same value, or the same first failure (`evaluate_iff_yields`).
-/

namespace TexCalc

theorem ofText_of_writes {trailing : Bool} {rank : Rank} {ts : List Token} {e : Expr} {t : Text}
    (h : Writes false trailing rank ts e) (ht : Spells ts t) : Token.ofText t = .ok ts := by
  have hts : Alternates .operand (ts ++ []) := alternates_of_writes h .nil
  rw [List.append_nil] at hts
  exact scan_of_alternates ht hts

theorem evaluate_ascii {t : Text} {ts program : List Token} (ht : Token.ofText t = .ok ts)
    (hts : Postfix.ofInfix ts = .ok program) :
    (evaluate .ascii t).map (·.value) = Machine.value program := by
  simp only [evaluate, Mode.canonical, ht]
  change ((Postfix.ofInfix ts >>= _).map _ : Except Failure Float) = _
  rw [hts]
  change ((Machine.value program >>= _).map _ : Except Failure Float) = _
  cases Machine.value program <;> rfl

theorem evaluate_eq_ok_iff {mode : Mode} {t : Text} {x : Float} :
    (evaluate mode t).map (·.value) = .ok x ↔ ∃ ts program,
      Token.ofText (mode.canonical t) = .ok ts ∧ Postfix.ofInfix ts = .ok program
        ∧ Machine.value program = .ok x := by
  have hcanonical : (evaluate mode t).map (·.value)
      = (evaluate .ascii (mode.canonical t)).map (·.value) := rfl
  rw [hcanonical]
  constructor
  · intro h
    rcases hts : Token.ofText (mode.canonical t) with cause | ts
    · rw [evaluate, Mode.canonical, hts] at h
      cases h
    rcases hprogram : Postfix.ofInfix ts with cause | program
    · rw [evaluate, Mode.canonical, hts] at h
      change (Except.map _ (Postfix.ofInfix ts >>= _)) = _ at h
      rw [hprogram] at h
      cases h
    · rw [evaluate_ascii hts hprogram] at h
      exact ⟨ts, program, rfl, hprogram, h⟩
  · rintro ⟨ts, program, hts, hprogram, hvalue⟩
    rwa [evaluate_ascii hts hprogram]

/-- Any text that spells an expression, with blanks or without, evaluates to what the expression
yields from the left to the right. -/
theorem evaluate_iff_yields {ts : List Token} {e : Expr} {t : Text}
    (h : Writes false false .sum ts e) (ht : Spells ts t) (outcome : Except Failure Float) :
    (evaluate .ascii t).map (·.value) = outcome ↔ e.Yields outcome := by
  have hprogram : Postfix.ofInfix ts = .ok e.postorder :=
    Postfix.ofInfix_of_leaves
      (Postfix.leaves_of_writes h.allowBare (Postfix.blocks_nil .sum) fun _ => rfl)
  rw [evaluate_ascii (ofText_of_writes h ht) hprogram, Machine.value_postorder, Expr.yields_iff]

/-- In ` -2 ^ .5/(4 -+4)` the signs of numbers and the operator between them are told apart, and the
quotient is refused after both its operands are evaluated. -/
theorem evaluate_zero_difference :
    Writes false false .sum
        [.number (-2), .operator .power, .number 0.5, .operator .divide, .openParen, .number 4,
          .operator .minus, .number 4, .closeParen]
        (.operation .divide (.operation .power (.number (-2)) (.number 0.5))
          (.operation .minus (.number 4) (.number 4)))
      ∧ Spells
        [.number (-2), .operator .power, .number 0.5, .operator .divide, .openParen, .number 4,
          .operator .minus, .number 4, .closeParen] " -2 ^ .5/(4 -+4)".toList
      ∧ (evaluate .ascii " -2 ^ .5/(4 -+4)".toList).map (·.value) = .error .divisionByZero := by
  have atom : ∀ (x : Float) (rank : Rank), Writes false false rank [.number x] (.number x) :=
    fun x rank => .loosen (by cases rank <;> decide) (.number x)
  have power := Writes.operation .power (atom (-2) _) (atom 0.5 _)
  have difference := Writes.operation .minus (atom 4 _) (atom 4 _)
  have quotient := Writes.operation .divide (.loosen (by decide) power)
    (.loosen (by decide) (.group difference))
  have written := Writes.loosen (by decide : Rank.sum.level ≤ Rank.product.level) quotient
  have two : Lexeme (.number (-2)) ['-', '2'] :=
    .of_read? (.signed (.inr rfl) (by decide)) (by decide +kernel)
  have half : Lexeme (.number 0.5) ['.', '5'] :=
    .of_read? (.unsigned (by decide)) (by decide +kernel)
  have four : Lexeme (.number 4) ['4'] :=
    .of_read? (.unsigned (by decide)) (by decide +kernel)
  have plusFour : Lexeme (.number 4) ['+', '4'] :=
    .of_read? (.signed (.inl rfl) (by decide)) (by decide +kernel)
  have none : Text.isBlank [] = true := rfl
  have space : Text.isBlank [' '] = true := by decide
  have spelled : Spells _ " -2 ^ .5/(4 -+4)".toList :=
    .cons space two <| .cons space (.operator .power) <| .cons space half <|
      .cons none (.operator .divide) <| .cons none .openParen <| .cons none four <|
      .cons space (.operator .minus) <| .cons none plusFour <| .cons none .closeParen (.nil none)
  have zero : (4 - 4 : Float) = 0 := by decide +kernel
  refine ⟨written, spelled, (evaluate_iff_yields written spelled _).2 ?_⟩
  exact .zeroDivisor (.operation (.number (-2)) (.number 0.5) (by decide))
    (.operation (.number 4) (.number 4) (by decide)) (.inl zero)

end TexCalc
