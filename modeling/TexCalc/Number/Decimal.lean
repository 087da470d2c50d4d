import TexCalc.Text.Basic

/-!
# Decimal numbers and their text

A decimal number is a count of a power of ten. Its text has an integer part without superfluous
leading zero and, where it is no whole number, a point and its decimals as far as the last one
that is not zero. Texts never have an exponent here.
-/

namespace TexCalc

/-- The number `count * 10 ^ exponent`. -/
structure Decimal where
  count : Nat
  exponent : Int
  deriving DecidableEq

namespace Decimal

/-- A decimal number is `num / den`. -/
def num (d : Decimal) : Nat :=
  d.count * Nat.pow 10 d.exponent.toNat

def den (d : Decimal) : Nat :=
  Nat.pow 10 (-d.exponent).toNat

/-- The decimals of `rest / 10 ^ places`, which is less than one, up to the last nonzero one. -/
def decimals : (places rest : Nat) → Text
  | 0, _ => []
  | places + 1, rest =>
    if rest = 0 then []
    else
      let unit := Nat.pow 10 places
      Nat.digitChar (rest / unit) :: decimals places (rest % unit)

/-- The text of `count / 10 ^ places`. -/
def text (count places : Nat) : Text :=
  let unit := Nat.pow 10 places
  let whole := Text.ofNat (count / unit)
  match decimals places (count % unit) with
  | [] => whole
  | behind => whole ++ '.' :: behind

def toText (d : Decimal) : Text :=
  text d.num (-d.exponent).toNat

end Decimal

end TexCalc
