import TexCalc.Latex.Rule
import TexCalc.Symbol
import TexCalc.Text.Word

/-!
# Canonical text

Seven rules turn LaTeX into the text that the lexer knows. Each is applied to the whole text before
the next one begins, so a group without braces may be one only because an earlier rule has resolved
what stood in it: a fraction may stand in a root and both in the argument of a function, while a
fraction in a fraction keeps its braces and is refused by the lexer. The last rule removes every
command that is left.
-/

namespace TexCalc.Latex

/-- `\frac{A}{B}` becomes `(A)/(B)`. -/
def fraction : Rule where
  apply t := do
    let t ← word? "frac".toList t
    let (above, t) ← group? (skipBlanks t)
    let (below, t) ← group? (skipBlanks t)
    return ('(' :: above ++ ")/(".toList ++ below ++ [')'], t)
  suffix := by
    intro t new rest h
    simp only [Option.bind_eq_bind, Option.bind_eq_some_iff, Option.pure_def, Option.some.injEq,
      Prod.mk.injEq, Prod.exists] at h
    obtain ⟨t₁, h₁, _, t₂, h₂, _, t₃, h₃, -, rfl⟩ := h
    exact (group?_suffix h₃).trans <| (skipBlanks_suffix t₂).trans <|
      (group?_suffix h₂).trans <| (skipBlanks_suffix t₁).trans (word?_suffix h₁)

/-- `\sqrt{A}` becomes `sqrt(A)`. -/
def root : Rule where
  apply t := do
    let t ← word? "sqrt".toList t
    let (argument, t) ← group? (skipBlanks t)
    return ("sqrt(".toList ++ argument ++ [')'], t)
  suffix := by
    intro t new rest h
    simp only [Option.bind_eq_bind, Option.bind_eq_some_iff, Option.pure_def, Option.some.injEq,
      Prod.mk.injEq, Prod.exists] at h
    obtain ⟨t₁, h₁, _, t₂, h₂, -, rfl⟩ := h
    exact (group?_suffix h₂).trans <| (skipBlanks_suffix t₁).trans (word?_suffix h₁)

/-- The call of one function: `\f{A}` and `\f A` become `f(A)`. -/
def callOf? (f : Func) (t : Text) : Option (Text × Text) := do
  let t ← word? f.name t
  let (argument, t) ← argument? (skipBlanks t)
  return (f.name ++ '(' :: argument ++ [')'], t)

theorem callOf?_suffix {f : Func} {t new rest : Text} (h : callOf? f t = some (new, rest)) :
    rest <:+ t := by
  simp only [callOf?, Option.bind_eq_bind, Option.bind_eq_some_iff, Option.pure_def,
    Option.some.injEq, Prod.mk.injEq, Prod.exists] at h
  obtain ⟨t₁, h₁, _, t₂, h₂, -, rfl⟩ := h
  exact (argument?_suffix h₂).trans <| (skipBlanks_suffix t₁).trans (word?_suffix h₁)

/-- The call of a function; no function's name begins another's. -/
def call : Rule where
  apply t := Func.all.findSome? (callOf? · t)
  suffix := by
    intro t new rest h
    obtain ⟨f, -, hf⟩ := List.exists_of_findSome?_eq_some h
    exact callOf?_suffix hf

/-- A command in front of a parenthesis, blanks between them allowed, leaves the parenthesis. -/
def delimiter (name : Text) (paren : Char) : Rule where
  apply t := do
    let t ← word? name t
    let t ← word? [paren] (skipBlanks t)
    return ([paren], t)
  suffix := by
    intro t new rest h
    simp only [Option.bind_eq_bind, Option.bind_eq_some_iff, Option.pure_def, Option.some.injEq,
      Prod.mk.injEq] at h
    obtain ⟨t₁, h₁, t₂, h₂, -, rfl⟩ := h
    exact (word?_suffix h₂).trans <| (skipBlanks_suffix t₁).trans (word?_suffix h₁)

/-- `\pi` becomes `pi` unless a word goes on behind it. -/
def pi : Rule where
  apply t := do
    let t ← word? "pi".toList t
    if t.head?.any isWordChar then none
    return ("pi".toList, t)
  suffix := by
    intro t new rest h
    simp only [Option.bind_eq_bind, Option.bind_eq_some_iff] at h
    obtain ⟨t₁, h₁, h₂⟩ := h
    split at h₂
    · simp at h₂
    · simp only [Option.pure_def, Option.some.injEq, Prod.mk.injEq] at h₂
      exact h₂.2 ▸ word?_suffix h₁

/-- A backslash and the letters behind it disappear. -/
def command : Rule where
  apply t :=
    if t.head?.any Char.isAlpha then some ([], t.dropWhile Char.isAlpha) else none
  suffix := by
    intro t new rest h
    split at h
    · cases h
      exact List.dropWhile_suffix Char.isAlpha
    · cases h

def rules : List Rule :=
  [fraction, root, call, delimiter "left".toList '(', delimiter "right".toList ')', pi, command]

def toCanonical (t : Text) : Text :=
  rules.foldl (fun t rule => rule.rewrite t) t

end TexCalc.Latex
