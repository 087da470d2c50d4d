import TexCalc.Token.Lexer

/-!
# The spelling of tokens

The other side of the lexer: which texts write a token, and which write a list of tokens one after
the other with blanks around them or none.
-/

namespace TexCalc

/-- `Lexeme t w`: the text `w` writes the token `t`. -/
inductive Lexeme : Token → Text → Prop
  | number {w : Text} (h : IsNumeral w) : Lexeme (.number (Numeral.value h)) w
  | constant (k : Constant) : Lexeme (.constant k) k.name
  | operator (op : Operator) : Lexeme (.operator op) [op.symbol]
  | function (f : Func) : Lexeme (.function f) f.name
  | unknown {name : Text} (nonempty : name ≠ []) (letters : ∀ c ∈ name, c.isAlpha = true)
      (noFunction : ∀ f : Func, f.name ≠ name) (noConstant : ∀ k : Constant, k.name ≠ name) :
      Lexeme (.unknown name) name
  | openParen : Lexeme .openParen ['(']
  | closeParen : Lexeme .closeParen [')']

theorem Lexeme.of_read? {w : Text} {x : Float} (h : IsNumeral w) (hx : Numeral.read? w = some x) :
    Lexeme (.number x) w := by
  obtain rfl : x = Numeral.value h := Option.some.inj (hx.symm.trans (Numeral.read?_eq_value h))
  exact .number h

/-- `Spells ts t`: the text `t` writes the tokens `ts` in order, with any blanks before, between
and behind them. -/
inductive Spells : List Token → Text → Prop
  | nil {gap : Text} (blank : gap.isBlank = true) : Spells [] gap
  | cons {t : Token} {ts : List Token} {gap w further : Text} (blank : gap.isBlank = true)
      (lexeme : Lexeme t w) (rest : Spells ts further) : Spells (t :: ts) (gap ++ w ++ further)

end TexCalc
