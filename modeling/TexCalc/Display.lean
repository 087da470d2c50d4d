import TexCalc.Number.Decimal
import TexCalc.Number.Double

/-!
# Displaying a result

A result is shown with a given number of decimals at most, rounded from its exact value with ties
to even. A magnitude from `10 ^ -6` on and below `10 ^ 16` is shown in plain decimal notation, and
zero too; any other one has a mantissa from 1 on and below 10, with that number of decimals, and
the exponent behind an `e`. Trailing zeros are left out, and nothing is shown as a negative zero.
-/

namespace TexCalc.Display

/-- The units of the double nearest to `10 ^ -6`. -/
def plainFrom : Nat :=
  4722366482869645 * Nat.pow 2 1002

/-- The units of `10 ^ 16`. -/
def plainBelow : Nat :=
  Nat.pow 10 16 * Double.one

theorem plainFrom_eq : plainFrom = Double.magnitude (Double.nearestBits 1 (Nat.pow 10 6)) := by
  decide +kernel

/-- Whether a magnitude is shown without an exponent. -/
def isPlain (units : Nat) : Bool :=
  units == 0 || (plainFrom ≤ units && units < plainBelow)

/-- The magnitude rounded to a count of `10 ^ -digits`. -/
def roundedCount (units digits : Nat) : Nat :=
  roundDiv (units * Nat.pow 10 digits) Double.one

/-- The magnitude rounded to `digits + 1` significant digits: the mantissa as a count of
`10 ^ -digits`, and the exponent. Rounding up to ten moves to the next exponent. -/
def roundedMantissa (units digits : Nat) : Nat × Int :=
  let exponent := decimalExponent units Double.one
  let shift := (digits : Int) - exponent
  let count :=
    roundDiv (units * Nat.pow 10 shift.toNat) (Double.one * Nat.pow 10 (-shift).toNat)
  if count = Nat.pow 10 (digits + 1) then (Nat.pow 10 digits, exponent + 1) else (count, exponent)

def finite (negative : Bool) (units digits : Nat) : Text :=
  if isPlain units then
    let count := roundedCount units digits
    sign (negative && count != 0) ++ Decimal.text count digits
  else
    let (count, exponent) := roundedMantissa units digits
    sign negative ++ Decimal.text count digits ++ 'e' :: Text.ofInt exponent
where
  sign (negative : Bool) : Text :=
    if negative then ['-'] else []

/-- The text of a result with so many decimals at most. -/
def result (x : Float) (digits : Nat) : Text :=
  match Double.ofFloat x with
  | .nan => "NaN".toList
  | .infinite false => "∞".toList
  | .infinite true => "-∞".toList
  | .finite negative units => finite negative units digits

end TexCalc.Display
