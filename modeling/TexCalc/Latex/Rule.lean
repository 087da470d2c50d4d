import TexCalc.Text.Basic

/-!
# Rewriting commands

A command begins with a backslash. A rule is shown the text behind one and either passes or says
what to write in place of the backslash and the part of that text which it takes up. A rule is
applied to a whole text from the left: what it writes is not looked at again, and where it passes
the backslash stays.

The readers below take something up at the beginning of a text and leave an ending of it, which is
why rewriting comes to an end.
-/

namespace TexCalc.Latex

/-- What a rule makes of the text behind a backslash: the replacement, and the ending of the text
that stays as it is. -/
structure Rule where
  apply : Text → Option (Text × Text)
  suffix : ∀ {t new rest}, apply t = some (new, rest) → rest <:+ t

namespace Rule

/-- Applies a rule at every backslash from the left. -/
def rewrite (rule : Rule) : Text → Text
  | [] => []
  | c :: rest =>
    if c = '\\' then
      match _ : rule.apply rest with
      | some (new, left) => new ++ rewrite rule left
      | none => c :: rewrite rule rest
    else c :: rewrite rule rest
termination_by t => t.length
decreasing_by
  · have := (rule.suffix ‹_›).length_le
    grind
  · grind
  · grind

variable {rule : Rule} {t : Text}

theorem rewrite_nil : rule.rewrite [] = [] := by
  rw [rewrite]

theorem rewrite_cons {c : Char} (hc : c ≠ '\\') : rule.rewrite (c :: t) = c :: rule.rewrite t := by
  rw [rewrite, if_neg hc]

theorem rewrite_some {new left : Text} (h : rule.apply t = some (new, left)) :
    rule.rewrite ('\\' :: t) = new ++ rule.rewrite left := by
  rw [rewrite, if_pos rfl]
  split
  · rename_i heq
    rw [h] at heq
    cases heq
    rfl
  · rename_i heq
    rw [h] at heq
    cases heq

theorem rewrite_none (h : rule.apply t = none) :
    rule.rewrite ('\\' :: t) = '\\' :: rule.rewrite t := by
  rw [rewrite, if_pos rfl]
  split
  · rename_i heq
    rw [h] at heq
    cases heq
  · rfl

end Rule

/-- Takes up a given word. -/
def word? (w t : Text) : Option Text :=
  w.isPrefixOf? t

/-- The text from the first character on that is no blank. -/
def skipBlanks (t : Text) : Text :=
  t.dropWhile isBlank

def isBrace (c : Char) : Bool :=
  c == '{' || c == '}'

/-- Takes up a nonempty group in braces that contains no braces, and gives what it contains. -/
def group? : Text → Option (Text × Text)
  | '{' :: t =>
    let inner := t.takeWhile (!isBrace ·)
    match t.dropWhile (!isBrace ·) with
    | '}' :: rest => if inner = [] then none else some (inner, rest)
    | _ => none
  | _ => none

def isBareChar (c : Char) : Bool :=
  c.isAlphanum || ".+-*/^()".toList.elem c

/-- Takes up the longest nonempty argument without braces. -/
def bare? (t : Text) : Option (Text × Text) :=
  match t.takeWhile isBareChar with
  | [] => none
  | inner => some (inner, t.dropWhile isBareChar)

def argument? (t : Text) : Option (Text × Text) :=
  (group? t).or (bare? t)

theorem word?_eq_some {w t rest : Text} (h : word? w t = some rest) : t = w ++ rest := by
  induction w generalizing t with
  | nil => exact Option.some.inj h
  | cons a w ih =>
    cases t with
    | nil => cases h
    | cons b t =>
      change (if a == b then word? w t else none) = some rest at h
      split at h
      · rename_i hab
        rw [beq_iff_eq.1 hab, ih h, List.cons_append]
      · cases h

theorem word?_suffix {w t rest : Text} (h : word? w t = some rest) : rest <:+ t :=
  word?_eq_some h ▸ List.suffix_append w rest

theorem skipBlanks_suffix (t : Text) : skipBlanks t <:+ t :=
  List.dropWhile_suffix isBlank

theorem group?_suffix {t inner rest : Text} (h : group? t = some (inner, rest)) : rest <:+ t := by
  unfold group? at h
  split at h
  · rename_i t
    have hdrop := List.dropWhile_suffix (!isBrace ·) (l := t)
    dsimp only at h
    split at h
    · rename_i hrest
      split at h
      · cases h
      · cases h
        rw [hrest] at hdrop
        exact (List.suffix_cons _ _).trans (hdrop.trans (List.suffix_cons _ _))
    · cases h
  · cases h

theorem bare?_suffix {t inner rest : Text} (h : bare? t = some (inner, rest)) : rest <:+ t := by
  unfold bare? at h
  split at h
  · cases h
  · cases h
    exact List.dropWhile_suffix isBareChar

theorem argument?_suffix {t inner rest : Text} (h : argument? t = some (inner, rest)) :
    rest <:+ t := by
  rcases Option.or_eq_some_iff.1 h with h | ⟨-, h⟩
  · exact group?_suffix h
  · exact bare?_suffix h

end TexCalc.Latex
