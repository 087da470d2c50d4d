import TexCalc.Number.Numeral
import TexCalc.Token.Basic

/-!
# From text to tokens

The text is cut from the left, each time into the longest lexeme that begins there. What the lexer
remembers of the tokens behind it is one bit: whether a sign would belong to a number.
-/

namespace TexCalc

/-- The characters of numerals behind their sign. -/
def isNumeric (c : Char) : Bool :=
  c.isDigit || c == '.'

def isSign (c : Char) : Bool :=
  c == '+' || c == '-'

/-- Whether a number begins with `c` in front of `rest`: a digit, a point, or a sign that is
allowed and stands directly in front of one of them. -/
def beginsNumber (signAllowed : Bool) (c : Char) (rest : Text) : Bool :=
  isNumeric c || (signAllowed && isSign c && rest.head?.any isNumeric)

namespace Token

/-- The tokens of a text that begins at a position. -/
def scan (signAllowed : Bool) (position : Nat) : Text → Except Failure (List Token)
  | [] => .ok []
  | c :: rest =>
    if isBlank c then scan signAllowed (position + 1) rest
    else if beginsNumber signAllowed c rest then
      let lexeme := c :: rest.takeWhile isNumeric
      match Numeral.read? lexeme with
      | none => .error (.malformedNumber lexeme position)
      | some x =>
        (scan false (position + lexeme.length) (rest.dropWhile isNumeric)).map (.number x :: ·)
    else if c.isAlpha then
      let name := c :: rest.takeWhile Char.isAlpha
      (scan false (position + name.length) (rest.dropWhile Char.isAlpha)).map (ofName name :: ·)
    else
      match ofChar? c with
      | none => .error (.unexpectedChar c position)
      | some t => (scan t.kind.allowsSign (position + 1) rest).map (t :: ·)
termination_by t => t.length
decreasing_by
  all_goals
    have := (List.dropWhile_suffix isNumeric (l := rest)).length_le
    have := (List.dropWhile_suffix Char.isAlpha (l := rest)).length_le
    grind

def ofText (t : Text) : Except Failure (List Token) :=
  scan true 0 t

end Token

end TexCalc
