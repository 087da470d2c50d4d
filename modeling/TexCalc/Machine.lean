import TexCalc.Arithmetic
import TexCalc.Token.Basic

/-!
# The stack machine

A list of tokens in postfix order is a program for a machine whose whole state is a stack of
doubles. It has a value if every token finds its operands and exactly one number is left.
-/

namespace TexCalc.Machine

/-- One instruction on a stack whose top comes first. -/
def step : List Float → Token → Except Failure (List Float)
  | stack, .number x => .ok (x :: stack)
  | stack, .constant k => .ok (k.value :: stack)
  | y :: x :: below, .operator op => (op.perform x y).map (· :: below)
  | _, .operator op => .error (.missingOperand op)
  | x :: below, .function f => (f.perform x).map (· :: below)
  | [], .function f => .error (.missingArgument f)
  | _, t => .error (.misplacedToken t.toText)

def run (stack : List Float) (program : List Token) : Except Failure (List Float) :=
  program.foldlM step stack

/-- The one number that a program leaves. -/
def value (program : List Token) : Except Failure Float := do
  match ← run [] program with
  | [x] => .ok x
  | stack => .error (.unbalancedStack stack.length)

end TexCalc.Machine
