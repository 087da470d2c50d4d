import TexCalc.Latex.Canonical

/-!
# The LaTeX that is translated

The other side of the rewriting: which LaTeX texts stand for which plain texts. Groups are nested in
the order in which the rules resolve them: a fraction has no groups in it, a root has fractions, and
a call has fractions and roots.
-/

namespace TexCalc.Latex

/-- A group with blanks in front of it. -/
def group (gap inner : Text) : Text :=
  gap ++ '{' :: (inner ++ ['}'])

/-- Whether a word that stands in front of a text ends there: at the end of the text or of the group
around it, at a closing delimiter, or at a character that neither goes on with the word nor begins a
command. -/
def EndsWord (t : Text) : Prop :=
  t.head?.all (fun c => c != '\\' && !isWordChar c) = true ∨ "\\right)".toList <+: t

/-- `Translates resolved level t u`: the LaTeX text `t` stands for the plain text `u`. Fractions
need the level 1 or more and have texts of level 0 in them, roots the level 2 with texts of level 1,
and calls the level 3 with texts of level 2. At first no rule has been applied; what a rule resolves
does not occur in a text once `resolved` counts that rule in. -/
inductive Translates (resolved : Nat) : Nat → Text → Text → Prop
  | nil {level : Nat} : Translates resolved level [] []
  | char {level : Nat} {c : Char} {t u : Text} (hc : c ≠ '\\' ∧ isBrace c = false)
      (rest : Translates resolved level t u) : Translates resolved level (c :: t) (c :: u)
  | opening {level : Nat} {t u : Text} (h : resolved ≤ 3) (rest : Translates resolved level t u) :
      Translates resolved level ('\\' :: "left(".toList ++ t) ('(' :: u)
  | closing {level : Nat} {t u : Text} (h : resolved ≤ 4) (rest : Translates resolved level t u) :
      Translates resolved level ('\\' :: "right)".toList ++ t) (')' :: u)
  | pi {level : Nat} {t u : Text} (h : resolved ≤ 5) (ends : EndsWord t)
      (rest : Translates resolved level t u) :
      Translates resolved level ('\\' :: "pi".toList ++ t) ("pi".toList ++ u)
  | fraction {level : Nat} {gap gap' a a' b b' t u : Text} (h : resolved = 0) (hlevel : 1 ≤ level)
      (blank : gap.isBlank = true) (blank' : gap'.isBlank = true) (ha : a ≠ []) (hb : b ≠ [])
      (above : Translates resolved 0 a a') (below : Translates resolved 0 b b')
      (rest : Translates resolved level t u) :
      Translates resolved level ('\\' :: "frac".toList ++ group gap a ++ group gap' b ++ t)
        ('(' :: a' ++ ")/(".toList ++ b' ++ ')' :: u)
  | root {level : Nat} {gap a a' t u : Text} (h : resolved ≤ 1) (hlevel : 2 ≤ level)
      (blank : gap.isBlank = true) (ha : a ≠ []) (argument : Translates resolved 1 a a')
      (rest : Translates resolved level t u) :
      Translates resolved level ('\\' :: "sqrt".toList ++ group gap a ++ t)
        ("sqrt(".toList ++ a' ++ ')' :: u)
  | call {level : Nat} {gap a a' t u : Text} (f : Func) (h : resolved ≤ 2) (hlevel : 3 ≤ level)
      (blank : gap.isBlank = true) (ha : a ≠ []) (argument : Translates resolved 2 a a')
      (rest : Translates resolved level t u) :
      Translates resolved level ('\\' :: f.name ++ group gap a ++ t)
        (f.name ++ '(' :: a' ++ ')' :: u)

namespace Translates

variable {resolved level : Nat} {t u : Text}

/-- A text without backslash and braces stands for itself. -/
theorem plain {w : Text} (hw : ∀ c ∈ w, c ≠ '\\' ∧ isBrace c = false)
    (rest : Translates resolved level t u) : Translates resolved level (w ++ t) (w ++ u) := by
  induction w with
  | nil => exact rest
  | cons c w ih =>
    exact .char (hw c List.mem_cons_self) (ih fun d hd => hw d (List.mem_cons_of_mem c hd))

end Translates

end TexCalc.Latex
