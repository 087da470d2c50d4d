import TexCalc.Number.Rounding

/-!
# Doubles

Every finite double is a whole multiple of `2 ^ -1074`, the least positive one, so the magnitude
of a double is a natural number of such units and everything about its value is arithmetic of
natural numbers. Without their sign the bits of the doubles count them in increasing order: the
magnitude with the bits `b` is `magnitude b` units, and `nearestBits` finds the bits of the double
nearest to a quotient, a tie going to the even bits and a quotient beyond the largest double to
the infinity.
-/

namespace TexCalc

/-- What a double stands for. A finite one is `units` times `2 ^ -1074`, with its sign. -/
inductive Double
  | nan
  | infinite (negative : Bool)
  | finite (negative : Bool) (units : Nat)
  deriving DecidableEq

namespace Double

/-- The number of units in one. -/
def one : Nat :=
  Nat.pow 2 1074

def infinityBits : Nat :=
  2047 * Nat.pow 2 52

/-- The units of the finite double with the bits `b`, its sign left out. -/
def magnitude (b : Nat) : Nat :=
  let exponent := b / Nat.pow 2 52
  if exponent = 0 then b else (Nat.pow 2 52 + b % Nat.pow 2 52) * Nat.pow 2 (exponent - 1)

/-- The bits of the double nearest to `num / den`: the significand is rounded where the double's
last place is, `2 ^ k` units for the least `k` that leaves it 53 bits. -/
def nearestBits (num den : Nat) : Nat :=
  let k := (num * one / den).log2 - 52
  min (k * Nat.pow 2 52 + roundDiv (num * one) (den * Nat.pow 2 k)) infinityBits

/-- The double with a sign and the bits of its magnitude. -/
def ofSignBits (negative : Bool) (b : Nat) : Float :=
  Float.ofBits (UInt64.ofNat (if negative then Nat.pow 2 63 + b else b))

def nearest (negative : Bool) (num den : Nat) : Float :=
  ofSignBits negative (nearestBits num den)

def ofFloat (x : Float) : Double :=
  let bits := x.toBits.toNat
  let negative := decide (Nat.pow 2 63 ≤ bits)
  let b := bits % Nat.pow 2 63
  if infinityBits < b then .nan
  else if b = infinityBits then .infinite negative
  else .finite negative (magnitude b)

end Double

end TexCalc
