import TexCalc.Failure

/-!
# Tokens

What a canonical text is made of. A number carries its sign where the sign stands for no operator.
Names that are neither a function nor a constant are tokens too; they are refused when the tokens
are put in order.
-/

namespace TexCalc

inductive Token
  | number (x : Float)
  | constant (k : Constant)
  | operator (op : Operator)
  | function (f : Func)
  | unknown (name : Text)
  | openParen
  | closeParen
  deriving DecidableEq

namespace Token

inductive Kind
  | number
  | operator
  | function
  | unknown
  | openParen
  | closeParen
  deriving DecidableEq

def kind : Token → Kind
  | .number _ | .constant _ => .number
  | .operator _ => .operator
  | .function _ => .function
  | .unknown _ => .unknown
  | .openParen => .openParen
  | .closeParen => .closeParen

/-- Whether a sign directly behind a token of this kind, and in front of a digit or a point,
belongs to the number there. -/
def Kind.allowsSign : Kind → Bool
  | .operator | .openParen => true
  | _ => false

/-- The token that a run of letters is: a function, else a constant, else an unknown name. -/
def ofName (name : Text) : Token :=
  match Func.ofName? name with
  | some f => .function f
  | none =>
    match Constant.ofName? name with
    | some k => .constant k
    | none => .unknown name

def ofChar? (c : Char) : Option Token :=
  if c = '(' then some .openParen
  else if c = ')' then some .closeParen
  else (Operator.ofSymbol? c).map .operator

def toText : Token → Text
  | .number x => (Double.ofFloat x).toText
  | .constant k => k.name
  | .operator op => [op.symbol]
  | .function f => f.name
  | .unknown name => name
  | .openParen => ['(']
  | .closeParen => [')']

/-- The texts of tokens with one space between any two. -/
def listText : List Token → Text
  | [] => []
  | [t] => t.toText
  | t :: rest => t.toText ++ ' ' :: listText rest

end Token

end TexCalc
