import TexCalc.Session.Basic

/-!
# The keys

Most keys write something at the end of the entry; the others edit the entry, clear, submit, or
show and hide the stages of the evaluation. The delete key removes the name of a function together
with the parenthesis that its key writes behind it.
-/

namespace TexCalc

inductive Key
  | digit (d : Fin 10)
  | point
  | operator (op : Operator)
  | openParen
  | closeParen
  | function (f : Func)
  | constant (k : Constant)
  | delete
  | clearEntry
  | clearHistory
  | reset
  | equals
  | stages
  deriving DecidableEq

namespace Key

def all : List Key :=
  [.clearEntry, .clearHistory, .reset] ++ Func.all.map .function ++ Constant.all.map .constant
    ++ (List.finRange 10).map .digit ++ Operator.all.map .operator
    ++ [.point, .openParen, .closeParen, .delete, .equals, .stages]

def label : Key → Text
  | .digit d => Text.ofNat d
  | .point => ['.']
  | .operator op => [op.symbol]
  | .openParen => ['(']
  | .closeParen => [')']
  | .function f => f.name
  | .constant .pi => ['π']
  | .constant .e => ['e']
  | .delete => "DEL".toList
  | .clearEntry => "C".toList
  | .clearHistory => "CLR".toList
  | .reset => "AC".toList
  | .equals => ['=']
  | .stages => "Démarche".toList

def ofLabel? (t : Text) : Option Key :=
  all.find? (·.label == t)

end Key

def Func.opening (f : Func) : Text :=
  f.name ++ ['(']

/-- A text without its last symbol: the first function of the table whose name and parenthesis end
it, else its last character. -/
def deleteLast (t : Text) : Text :=
  match Func.all.findSome? fun f => f.opening.isSuffixOf? t with
  | some rest => rest
  | none => t.dropLast

namespace Session

def insert (s : Session) (t : Text) : Session :=
  s.edit (s.entry ++ t)

/-- What a key does to the session; the key of the stages does nothing to it. -/
def press (s : Session) : Key → Session
  | .digit d => written (Text.ofNat d)
  | .point => written ['.']
  | .operator op => written [op.symbol]
  | .openParen => written ['(']
  | .closeParen => written [')']
  | .function f => written f.opening
  | .constant k => written k.name
  | .delete => { s.edit (deleteLast s.entry) with focus := true }
  | .clearEntry => s.clearEntry
  | .clearHistory => s.clearHistory
  | .reset => s.reset
  | .equals => s.submit
  | .stages => s
where
  written (t : Text) : Session :=
    { s.insert t with focus := true }

end Session

end TexCalc
