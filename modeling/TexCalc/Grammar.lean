import TexCalc.Expr

/-!
# Infix notation

Which lists of tokens write which expression. A sum has sums on its left and products on its right,
a product has products on its left and powers on its right, and a power has an atom on its left and
powers on its right. A function is written with its argument in parentheses, or bare, and then
everything up to the end of its group is its argument; so a bare function can stand only last among
the operands of a group.
-/

namespace TexCalc

/-- What may stand outside parentheses and calls, from the loosest to the tightest. -/
inductive Rank
  | sum
  | product
  | power
  | atom
  deriving DecidableEq

/-- The ranks in numbers, the tighter the greater. -/
def Rank.level : Rank → Nat
  | .sum => 0
  | .product => 1
  | .power => 2
  | .atom => 3

namespace Operator

def rank : Operator → Rank
  | .plus | .minus => .sum
  | .times | .divide => .product
  | .power => .power

/-- The rank of the left operand: sums and products are grouped to the left. -/
def leftRank : Operator → Rank
  | .plus | .minus => .sum
  | .times | .divide => .product
  | .power => .atom

/-- The rank of the right operand: powers are grouped to the right. -/
def rightRank : Operator → Rank
  | .plus | .minus => .product
  | .times | .divide => .power
  | .power => .power

end Operator

/-- `Writes bare trailing rank ts e`: the tokens `ts` write the expression `e`, with nothing looser
than `rank` outside parentheses and calls. `bare` tells whether functions may be written without
parentheses, and `trailing` whether such a function ends the tokens. -/
inductive Writes (bare : Bool) : Bool → Rank → List Token → Expr → Prop
  | number (x : Float) : Writes bare false .atom [.number x] (.number x)
  | constant (k : Constant) : Writes bare false .atom [.constant k] (.constant k)
  | group {trailing : Bool} {ts : List Token} {e : Expr} (inner : Writes bare trailing .sum ts e) :
      Writes bare false .atom (.openParen :: (ts ++ [.closeParen])) e
  | call {trailing : Bool} {ts : List Token} {e : Expr} (f : Func)
      (argument : Writes bare trailing .sum ts e) :
      Writes bare false .atom (.function f :: .openParen :: (ts ++ [.closeParen])) (.call f e)
  | bareCall {trailing : Bool} {ts : List Token} {e : Expr} (f : Func) (allowed : bare = true)
      (ungrouped : ts.head? ≠ some .openParen) (argument : Writes bare trailing .sum ts e) :
      Writes bare true .atom (.function f :: ts) (.call f e)
  | operation {trailing : Bool} {ts us : List Token} {x y : Expr} (op : Operator)
      (left : Writes bare false op.leftRank ts x) (right : Writes bare trailing op.rightRank us y) :
      Writes bare trailing op.rank (ts ++ .operator op :: us) (.operation op x y)
  | loosen {trailing : Bool} {tight loose : Rank} {ts : List Token} {e : Expr}
      (h : loose.level ≤ tight.level) (tightly : Writes bare trailing tight ts e) :
      Writes bare trailing loose ts e

namespace Writes

variable {bare trailing : Bool} {rank : Rank} {ts : List Token} {e : Expr}

/-- What is written without bare functions may be written where they are allowed. -/
theorem allowBare (h : Writes false trailing rank ts e) : Writes bare trailing rank ts e := by
  induction h with
  | number x => exact .number x
  | constant k => exact .constant k
  | group _ ih => exact .group ih
  | call f _ ih => exact .call f ih
  | bareCall f allowed => cases allowed
  | operation op _ _ ihx ihy => exact .operation op ihx ihy
  | loosen h _ ih => exact .loosen h ih

end Writes

end TexCalc
