import TexCalc.Number.Shortest
import TexCalc.Symbol

/-!
# Failures

Why a text has no value, one constructor for each cause, and the sentence that tells the user. The
causes that one stage finds in one way are a family.
-/

namespace TexCalc

/-- Why a text, or a list of tokens, has no value. Positions are counted in characters from 0. -/
inductive Failure
  /-- A character begins no token. -/
  | unexpectedChar (c : Char) (position : Nat)
  /-- A run of digits and points, behind its sign if it has one, is no numeral. -/
  | malformedNumber (lexeme : Text) (position : Nat)
  | unmatchedClose
  | unclosedGroup
  /-- A name belongs to no function and no constant. -/
  | unknownName (name : Text)
  /-- A token has no place among the instructions of the stack machine. -/
  | misplacedToken (token : Text)
  | missingOperand (op : Operator)
  | missingArgument (f : Func)
  | negativeRoot (x : Float)
  | divisionByZero
  | unbalancedStack (left : Nat)
  deriving DecidableEq

namespace Failure

/-- What kind of failure it is, without its details. -/
inductive Family
  | lexical
  | syntactic
  | arity
  | domain
  | divisionByZero
  | structural
  deriving DecidableEq

def family : Failure → Family
  | .unexpectedChar .. | .malformedNumber .. => .lexical
  | .unmatchedClose | .unclosedGroup | .unknownName _ | .misplacedToken _ => .syntactic
  | .missingOperand _ | .missingArgument _ => .arity
  | .negativeRoot _ => .domain
  | .divisionByZero => .divisionByZero
  | .unbalancedStack _ => .structural

def message : Failure → Text
  | .unexpectedChar c position =>
    "caractère inattendu: '".toList ++ c :: "' (position ".toList ++ Text.ofNat position ++ [')']
  | .malformedNumber lexeme position =>
    "nombre invalide: \"".toList ++ lexeme ++ "\" (position ".toList ++ Text.ofNat position ++ [')']
  | .unmatchedClose => inSentence "parenthèses non appariées".toList
  | .unclosedGroup => inSentence "parenthèses non fermées".toList
  | .unknownName name => inSentence ("identifiant inconnu: ".toList ++ name)
  | .misplacedToken token => inSentence ("jeton inattendu en RPN: ".toList ++ token)
  | .missingOperand op =>
    "opérande manquant: l'opérateur '".toList ++ op.symbol :: "' attend deux opérandes".toList
  | .missingArgument f =>
    "opérande manquant: la fonction '".toList ++ f.name ++ "' attend un argument".toList
  | .negativeRoot x =>
    "hors domaine: racine carrée d'un négatif (".toList ++ (Double.ofFloat x).toText ++ [')']
  | .divisionByZero => "division par zéro".toList
  | .unbalancedStack left =>
    "expression invalide: ".toList ++ Text.ofNat left
      ++ " valeur(s) restante(s) au lieu d'une".toList
where
  /-- The causes that concern the order of tokens share an opening. -/
  inSentence (cause : Text) : Text :=
    "erreur de syntaxe: ".toList ++ cause

end Failure

end TexCalc
