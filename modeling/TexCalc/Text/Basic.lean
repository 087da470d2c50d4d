/-!
# Texts

A text is the list of its characters, so a position in it is an index counted from 0. Blanks are
the twenty-five characters with the property White_Space; they are what may stand around a token,
what a command skips before its argument and what trimming removes.
-/

namespace TexCalc

/-- A text, character by character. -/
abbrev Text := List Char

/-- The characters with the property White_Space. -/
def blanks : List Char :=
  ['\t', '\n', '\x0b', '\x0c', '\r', ' ', '\u0085', '\u00a0', '\u1680', '\u2000', '\u2001',
   '\u2002', '\u2003', '\u2004', '\u2005', '\u2006', '\u2007', '\u2008', '\u2009', '\u200a',
   '\u2028', '\u2029', '\u202f', '\u205f', '\u3000']

def isBlank (c : Char) : Bool :=
  blanks.elem c

theorem head_dropWhile (p : Char → Bool) (t : Text) : ¬(t.dropWhile p).head?.any p = true := by
  have h := List.head?_dropWhile_not p t
  split at h
  · rename_i heq
    simp [heq, h]
  · rename_i heq
    simp [heq]

namespace Text

def isBlank (t : Text) : Bool :=
  t.all TexCalc.isBlank

def trimStart (t : Text) : Text :=
  t.dropWhile TexCalc.isBlank

def trimEnd (t : Text) : Text :=
  (trimStart t.reverse).reverse

def trim (t : Text) : Text :=
  trimEnd (trimStart t)

def ofNat (n : Nat) : Text :=
  Nat.toDigits 10 n

/-- The decimal digits of a number behind a `-` if it is negative. -/
def ofInt (k : Int) : Text :=
  if k < 0 then '-' :: ofNat k.natAbs else ofNat k.natAbs

end Text

end TexCalc
