import TexCalc.Token.Basic

/-!
# From infix to postfix order

Values pass straight through. Operators, functions and open parentheses wait on a stack, most
recent first: an operator lets those before it go that take their operands first, a closing
parenthesis lets everything go down to the parenthesis that it closes, and with it the function in
front of that one. A waiting function stops the operators behind it, so one written without
parentheses applies to the rest of its group.
-/

namespace TexCalc

/-- What waits for its operands, or for its closing parenthesis. -/
inductive Pending
  | operator (op : Operator)
  | function (f : Func)
  | group
  deriving DecidableEq

namespace Postfix

/-- Splits off the operators on top that precede `op`. -/
def yieldTo (op : Operator) : List Pending → List Token × List Pending
  | .operator top :: below =>
    if top.precedes op then
      let (out, left) := yieldTo op below
      (.operator top :: out, left)
    else ([], .operator top :: below)
  | pending => ([], pending)

/-- Splits off what waits above the innermost open parenthesis, and drops that one. -/
def closeGroup? : List Pending → Option (List Token × List Pending)
  | [] => none
  | .group :: below => some ([], below)
  | .operator op :: below => (closeGroup? below).map fun (out, left) => (.operator op :: out, left)
  | .function f :: below => (closeGroup? below).map fun (out, left) => (.function f :: out, left)

/-- Splits off a function on top, which the group just closed was the argument of. -/
def closeCall : List Pending → List Token × List Pending
  | .function f :: below => ([.function f], below)
  | pending => ([], pending)

/-- What one token lets go, and what waits after it. -/
def step (pending : List Pending) : Token → Except Failure (List Token × List Pending)
  | .number x => .ok ([.number x], pending)
  | .constant k => .ok ([.constant k], pending)
  | .function f => .ok ([], .function f :: pending)
  | .openParen => .ok ([], .group :: pending)
  | .operator op =>
    let (out, left) := yieldTo op pending
    .ok (out, .operator op :: left)
  | .closeParen =>
    match closeGroup? pending with
    | none => .error .unmatchedClose
    | some (inner, left) =>
      let (call, left) := closeCall left
      .ok (inner ++ call, left)
  | .unknown name => .error (.unknownName name)

/-- What a list of tokens lets go, and what waits at its end. -/
def run (pending : List Pending) : List Token → Except Failure (List Token × List Pending)
  | [] => .ok ([], pending)
  | t :: rest => do
    let (out, pending) ← step pending t
    let (further, pending) ← run pending rest
    return (out ++ further, pending)

/-- What still waits at the end goes from the top; no parenthesis may be open. -/
def flush : List Pending → Except Failure (List Token)
  | [] => .ok []
  | .group :: _ => .error .unclosedGroup
  | .operator op :: below => (flush below).map (.operator op :: ·)
  | .function f :: below => (flush below).map (.function f :: ·)

def ofInfix (tokens : List Token) : Except Failure (List Token) := do
  let (out, pending) ← run [] tokens
  let last ← flush pending
  return out ++ last

end Postfix

end TexCalc
