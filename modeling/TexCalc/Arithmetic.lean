import TexCalc.Failure

/-!
# Arithmetic that can fail

Operators and functions are those on doubles, except that a quotient by zero and the square root
of a negative number have no value. All else has one, be it infinite or no number.
-/

namespace TexCalc

/-- An operator's value; both zeros are refused as divisors. -/
def Operator.perform (op : Operator) (x y : Float) : Except Failure Float :=
  if op = .divide ∧ y == 0 then .error .divisionByZero else .ok (op.apply x y)

/-- A function's value; the square root of a negative zero is allowed. -/
def Func.perform (f : Func) (x : Float) : Except Failure Float :=
  if f = .sqrt ∧ x < 0 then .error (.negativeRoot x) else .ok (f.apply x)

end TexCalc
