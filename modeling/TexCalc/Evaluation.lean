import TexCalc.Latex.Canonical
import TexCalc.Machine
import TexCalc.Postfix
import TexCalc.Token.Lexer

/-!
# Evaluating a text

From a text to its canonical form, its tokens, their postfix order and the value of that program.
The first stage that fails decides the failure.
-/

namespace TexCalc

/-- Whether a text is canonical as it stands or has LaTeX in it. -/
inductive Mode
  | ascii
  | latex
  deriving DecidableEq

def Mode.canonical : Mode → Text → Text
  | .ascii, t => t
  | .latex, t => Latex.toCanonical t

structure Trace where
  canonical : Text
  tokens : List Token
  program : List Token
  deriving DecidableEq

namespace Trace

/-- The stages as they are shown, in their order. -/
def texts (trace : Trace) : List Text :=
  [trace.canonical, Token.listText trace.tokens, Token.listText trace.program]

end Trace

structure Evaluation where
  value : Float
  trace : Trace
  deriving DecidableEq

def evaluate (mode : Mode) (t : Text) : Except Failure Evaluation := do
  let canonical := mode.canonical t
  let tokens ← Token.ofText canonical
  let program ← Postfix.ofInfix tokens
  let value ← Machine.value program
  return { value, trace := { canonical, tokens, program } }

end TexCalc
