import TexCalc.Proofs.Groups

/-!
# An operand may stand for another one

A value, a group and a call all run to their programs above whatever waits, and leave it waiting, as
long as no function is on top that would take a group as its argument (`run_of_operand`). So what
stands around an operand cannot tell which one it is: it fails for all of them in one way, or puts
the program of each in one place. Nothing is asked of the order of the tokens around it, nor of
those in a group. The main statement is `ofInfix_substitutes`.
-/

namespace TexCalc.Postfix

open Token (OperandNext)

/-- `Operand ts program`: the tokens are a value, a group or a call, and this is their program. -/
inductive Operand : List Token → List Token → Prop
  | number (x : Float) : Operand [.number x] [.number x]
  | constant (k : Constant) : Operand [.constant k] [.constant k]
  | group {ts program : List Token} (h : ofInfix ts = .ok program) :
      Operand (.openParen :: (ts ++ [.closeParen])) program
  | call {ts program : List Token} (f : Func) (h : ofInfix ts = .ok program) :
      Operand (.function f :: .openParen :: (ts ++ [.closeParen])) (program ++ [.function f])

variable {pending left : List Pending} {before ts program out : List Token}

theorem run_of_operand (h : Operand ts program) (hcall : closeCall pending = ([], pending)) :
    run pending ts = .ok (program, pending) := by
  cases h with
  | number x => rfl
  | constant k => rfl
  | group h => exact run_operand h hcall
  | call f h =>
    have hfunction : step pending (.function f) = .ok ([], .function f :: pending) := rfl
    rw [run_cons _ hfunction, run_parenthesised (closed_of_ofInfix h), h]
    rfl

theorem closeCall_of_operandNext (hnext : OperandNext before)
    (h : run [] before = .ok (out, left)) : closeCall left = ([], left) := by
  rcases List.eq_nil_or_concat' before with rfl | ⟨front, t, rfl⟩
  · cases h
    rfl
  rcases hfront : run [] front with cause | ⟨first, next⟩
  · rw [run_append_error hfront] at h
    cases h
  rw [run_append _ hfront] at h
  obtain ⟨op, rfl⟩ | rfl := hnext t (by simp)
  · cases h
    rfl
  · cases h
    rfl

/-- The operands are all refused behind `before` and in front of `behind`, for one cause, or all
have their programs between the same tokens. -/
theorem ofInfix_substitutes {before : List Token} (hnext : OperandNext before)
    (behind : List Token) :
    (∃ cause, ∀ ts program, Operand ts program →
        ofInfix (before ++ ts ++ behind) = .error cause)
      ∨ ∃ front back, ∀ ts program, Operand ts program →
        ofInfix (before ++ ts ++ behind) = .ok (front ++ program ++ back) := by
  simp only [ofInfix_eq_finish, List.append_assoc]
  rcases hrun : run [] before with cause | ⟨out, left⟩
  · exact .inl ⟨cause, fun ts program _ => finish_append_error hrun _⟩
  have hcall := closeCall_of_operandNext hnext hrun
  have hplace : ∀ {ts program : List Token}, Operand ts program →
      finish [] (before ++ (ts ++ behind))
        = (finish left behind).map fun back => out ++ (program ++ back) := by
    intro ts program h
    rw [finish_append hrun, finish_append (run_of_operand h hcall)]
    cases finish left behind <;> rfl
  rcases hbehind : finish left behind with cause | back
  · refine .inl ⟨cause, fun ts program h => ?_⟩
    rw [hplace h, hbehind]
    rfl
  · refine .inr ⟨out, back, fun ts program h => ?_⟩
    rw [hplace h, hbehind]
    rfl

theorem ofInfix_substitutes_power : OperandNext [.number 3, .number 2, .operator .times]
    ∧ (∃ front back, ∀ ts program, Operand ts program →
      ofInfix ([.number 3, .number 2, .operator .times] ++ ts ++ [.operator .power, .number 2])
        = .ok (front ++ program ++ back))
    ∧ ∃ cause, ∀ ts program, Operand ts program →
      ofInfix ([.number 3, .number 2, .operator .times] ++ ts ++ [.closeParen])
        = .error cause := by
  have hnext : OperandNext [.number 3, .number 2, .operator .times] := by simp [OperandNext]
  refine ⟨hnext, (ofInfix_substitutes hnext _).resolve_left ?_,
    (ofInfix_substitutes hnext _).resolve_right ?_⟩
  · rintro ⟨cause, h⟩
    cases h _ _ (.number 1)
  · rintro ⟨front, back, h⟩
    cases h _ _ (.number 1)

/-- Behind a function a group is the argument, and a number is only a part of it. -/
example : ofInfix [.function .sin, .number 2, .operator .power, .number 3]
      = .ok [.number 2, .number 3, .operator .power, .function .sin]
    ∧ ofInfix [.function .sin, .openParen, .number 2, .closeParen, .operator .power, .number 3]
      = .ok [.number 2, .function .sin, .number 3, .operator .power] :=
  ⟨rfl, rfl⟩

end TexCalc.Postfix
