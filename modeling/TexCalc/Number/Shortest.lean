import TexCalc.Number.Decimal
import TexCalc.Number.Double

/-!
# The shortest decimal of a double

Of the decimal numbers that are read back as a given double, the shortest text has the fewest
significant digits; among those of that length it is the one nearest to the double, the upper one
of two equally near. On a grid of powers of ten only the two neighbours of the double can be meant,
so a grid is searched for each number of digits, from the coarsest on.
-/

namespace TexCalc

namespace Decimal

/-- The two neighbours of `num / den` among the multiples of `10 ^ exponent`, the nearer one first
and the upper one of two equally near. -/
def neighbours (num den : Nat) (exponent : Int) : List Decimal :=
  let num := num * Nat.pow 10 (-exponent).toNat
  let den := den * Nat.pow 10 exponent.toNat
  let low : Decimal := ⟨num / den, exponent⟩
  let high : Decimal := ⟨num / den + 1, exponent⟩
  if 2 * (num % den) < den then [low, high] else [high, low]

/-- Whether a decimal number is read back as the double with the bits `b`. -/
def readsAs (b : Nat) (d : Decimal) : Bool :=
  Double.nearestBits d.num d.den == b

/-- The shortest decimal number that is read back as the double of so many units. Seventeen digits
are enough for every double; the last resort is its exact value. -/
def shortest (units : Nat) : Decimal :=
  let b := Double.nearestBits units Double.one
  let leading := decimalExponent units Double.one
  let hit := (List.range 17).findSome? fun (further : Nat) =>
    (neighbours units Double.one (leading - further)).find? (readsAs b)
  hit.getD ⟨units * Nat.pow 5 1074, -1074⟩

end Decimal

/-- The text of a double by its shortest decimal number, never with an exponent; a negative zero
keeps its sign. -/
def Double.toText : Double → Text
  | .nan => "NaN".toList
  | .infinite negative => signed negative "inf".toList
  | .finite negative 0 => signed negative ['0']
  | .finite negative units => signed negative (Decimal.shortest units).toText
where
  signed (negative : Bool) (t : Text) : Text :=
    if negative then '-' :: t else t

end TexCalc
