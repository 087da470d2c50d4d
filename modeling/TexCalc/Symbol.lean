import TexCalc.Text.Basic

/-!
# Operators, functions and constants

The calculator knows five binary operators, ten functions of one number and two constants. Each
table is an enumeration with the list of all its members in the order in which the calculator
shows and searches them, and a name is looked up by finding its bearer in that list.
-/

namespace TexCalc

/-- On which side operators of equal precedence are grouped. -/
inductive Associativity
  | left
  | right
  deriving DecidableEq

inductive Operator
  | plus
  | minus
  | times
  | divide
  | power
  deriving DecidableEq

/-- The functions; `log` is the decimal logarithm and `ln` the natural one. -/
inductive Func
  | sin
  | cos
  | tan
  | asin
  | acos
  | atan
  | sqrt
  | log
  | ln
  | abs
  deriving DecidableEq

inductive Constant
  | pi
  | e
  deriving DecidableEq

namespace Operator

def all : List Operator :=
  [.plus, .minus, .times, .divide, .power]

def symbol : Operator → Char
  | .plus => '+'
  | .minus => '-'
  | .times => '*'
  | .divide => '/'
  | .power => '^'

def precedence : Operator → Nat
  | .plus | .minus => 2
  | .times | .divide => 3
  | .power => 4

/-- Powers are grouped to the right and all else to the left. -/
def associativity : Operator → Associativity
  | .power => .right
  | _ => .left

def ofSymbol? (c : Char) : Option Operator :=
  all.find? (·.symbol == c)

/-- Whether an operator takes its operands before one that follows it: it binds more tightly, or
as tightly and both are grouped to the left. -/
def precedes (first second : Operator) : Bool :=
  second.precedence < first.precedence ||
    (first.precedence == second.precedence && second.associativity == .left)

def apply : Operator → Float → Float → Float
  | .plus, x, y => x + y
  | .minus, x, y => x - y
  | .times, x, y => x * y
  | .divide, x, y => x / y
  | .power, x, y => x.pow y

end Operator

namespace Func

def all : List Func :=
  [.sin, .cos, .tan, .asin, .acos, .atan, .sqrt, .log, .ln, .abs]

def name : Func → Text
  | .sin => "sin".toList
  | .cos => "cos".toList
  | .tan => "tan".toList
  | .asin => "asin".toList
  | .acos => "acos".toList
  | .atan => "atan".toList
  | .sqrt => "sqrt".toList
  | .log => "log".toList
  | .ln => "ln".toList
  | .abs => "abs".toList

def ofName? (t : Text) : Option Func :=
  all.find? (·.name == t)

/-- The function on doubles, outside its domain too. -/
def apply : Func → Float → Float
  | .sin => Float.sin
  | .cos => Float.cos
  | .tan => Float.tan
  | .asin => Float.asin
  | .acos => Float.acos
  | .atan => Float.atan
  | .sqrt => Float.sqrt
  | .log => Float.log10
  | .ln => Float.log
  | .abs => Float.abs

theorem ofName?_name (f : Func) : ofName? f.name = some f := by
  cases f <;> rfl

theorem isAlpha_of_mem_name (f : Func) : ∀ c ∈ f.name, c.isAlpha = true :=
  List.all_eq_true.1 (by cases f <;> rfl)

end Func

namespace Constant

def all : List Constant :=
  [.pi, .e]

def name : Constant → Text
  | .pi => "pi".toList
  | .e => "e".toList

def ofName? (t : Text) : Option Constant :=
  all.find? (·.name == t)

/-- The doubles nearest to π and to e. -/
def value : Constant → Float
  | .pi => Float.ofBits 0x400921fb54442d18
  | .e => Float.ofBits 0x4005bf0a8b145769

theorem ofName?_name (k : Constant) : ofName? k.name = some k := by
  cases k <;> rfl

theorem isAlpha_of_mem_name (k : Constant) : ∀ c ∈ k.name, c.isAlpha = true :=
  List.all_eq_true.1 (by cases k <;> rfl)

end Constant

end TexCalc
