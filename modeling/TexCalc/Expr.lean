import TexCalc.Arithmetic
import TexCalc.Token.Basic

/-!
# Expression trees

What an expression means, without regard to how it is written: its value, found from the left
operand to the right one and then the operator, and its tokens in postorder, which leave no need
for parentheses. `Expr.Yields` says the same of the value step by step, with each cause of a failure
on its own.
-/

namespace TexCalc

inductive Expr
  | number (x : Float)
  | constant (k : Constant)
  | operation (op : Operator) (left right : Expr)
  | call (f : Func) (argument : Expr)
  deriving DecidableEq

namespace Expr

/-- The value of an expression, or the first failure from the left. -/
def eval : Expr → Except Failure Float
  | .number x => .ok x
  | .constant k => .ok k.value
  | .operation op left right => do
    let x ← left.eval
    let y ← right.eval
    op.perform x y
  | .call f argument => do
    let x ← argument.eval
    f.perform x

/-- The tokens of an expression, operands before their operator. -/
def postorder : Expr → List Token
  | .number x => [.number x]
  | .constant k => [.constant k]
  | .operation op left right => left.postorder ++ right.postorder ++ [.operator op]
  | .call f argument => argument.postorder ++ [.function f]

/-- `e.Yields outcome`: the operands are evaluated from the left and then the operator, and what
fails first decides. The only failures are a quotient by one of the two zeros and the square root
of a negative number. -/
inductive Yields : Expr → Except Failure Float → Prop
  | number (x : Float) : Yields (.number x) (.ok x)
  | constant (k : Constant) : Yields (.constant k) (.ok k.value)
  | leftFails {op : Operator} {left right : Expr} {cause : Failure}
      (hl : Yields left (.error cause)) : Yields (.operation op left right) (.error cause)
  | rightFails {op : Operator} {left right : Expr} {x : Float} {cause : Failure}
      (hl : Yields left (.ok x)) (hr : Yields right (.error cause)) :
      Yields (.operation op left right) (.error cause)
  | zeroDivisor {left right : Expr} {x y : Float} (hl : Yields left (.ok x))
      (hr : Yields right (.ok y)) (zero : y = 0 ∨ y = -0) :
      Yields (.operation .divide left right) (.error .divisionByZero)
  | operation {op : Operator} {left right : Expr} {x y : Float} (hl : Yields left (.ok x))
      (hr : Yields right (.ok y)) (allowed : ¬(op = .divide ∧ (y = 0 ∨ y = -0))) :
      Yields (.operation op left right) (.ok (op.apply x y))
  | argumentFails {f : Func} {argument : Expr} {cause : Failure}
      (ha : Yields argument (.error cause)) : Yields (.call f argument) (.error cause)
  | negativeRoot {argument : Expr} {x : Float} (ha : Yields argument (.ok x)) (negative : x < 0) :
      Yields (.call .sqrt argument) (.error (.negativeRoot x))
  | call {f : Func} {argument : Expr} {x : Float} (ha : Yields argument (.ok x))
      (allowed : ¬(f = .sqrt ∧ x < 0)) : Yields (.call f argument) (.ok (f.apply x))

end Expr

end TexCalc
