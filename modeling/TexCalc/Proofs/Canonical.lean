import TexCalc.Evaluation

/-!
# Canonical texts stay as they are

A backslash may outlive the rewriting, but never in front of a letter: where the last rule removes a
command, all the letters behind it go, so no other command can arise there. A text without commands
is what no rule changes, since every rule begins with a letter behind the backslash. The main
statement is `toCanonical_fixed`.
-/

namespace TexCalc.Latex

/-- A command: a backslash and directly behind it a letter. -/
def HasCommand (t : Text) : Prop :=
  ∃ c : Char, c.isAlpha = true ∧ ['\\', c] <:+: t

theorem not_hasCommand_nil : ¬HasCommand [] := by
  rintro ⟨c, -, h⟩
  cases List.infix_nil.1 h

theorem hasCommand_cons {c : Char} {t : Text} :
    HasCommand (c :: t) ↔ (c = '\\' ∧ t.head?.any Char.isAlpha = true) ∨ HasCommand t := by
  simp only [HasCommand, List.infix_cons_iff, List.cons_prefix_cons]
  constructor
  · rintro ⟨d, hd, ⟨rfl, u, rfl⟩ | h⟩
    · exact .inl ⟨rfl, hd⟩
    · exact .inr ⟨d, hd, h⟩
  · rintro (⟨rfl, h⟩ | ⟨d, hd, h⟩)
    · cases t with
      | nil => cases h
      | cons d t => exact ⟨d, h, .inl ⟨rfl, t, rfl⟩⟩
    · exact ⟨d, hd, .inr h⟩

theorem not_hasCommand_of_plain {t : Text} (h : ∀ c ∈ t, c ≠ '\\') : ¬HasCommand t := by
  rintro ⟨c, -, hcommand⟩
  exact h _ (hcommand.subset List.mem_cons_self) rfl

section Rules

/-- A rule that passes unless a letter stands behind the backslash. -/
def Rule.ReadsLetter (rule : Rule) : Prop :=
  ∀ ⦃t new left : Text⦄, rule.apply t = some (new, left) → t.head?.any Char.isAlpha = true

theorem head_of_word?_bind {α : Type} {w t : Text} {next : Text → Option α} {a : α}
    (hw : w.head?.any Char.isAlpha = true) (h : (word? w t >>= next) = some a) :
    t.head?.any Char.isAlpha = true := by
  obtain ⟨rest, hrest, -⟩ := Option.bind_eq_some_iff.1 h
  rw [word?_eq_some hrest]
  cases w with
  | nil => cases hw
  | cons c w => exact hw

theorem fraction_readsLetter : fraction.ReadsLetter :=
  fun _ _ _ h => head_of_word?_bind (by decide) h

theorem root_readsLetter : root.ReadsLetter :=
  fun _ _ _ h => head_of_word?_bind (by decide) h

theorem call_readsLetter : call.ReadsLetter := by
  intro t new left h
  obtain ⟨f, -, hf⟩ := List.exists_of_findSome?_eq_some h
  exact head_of_word?_bind (by cases f <;> decide) hf

theorem delimiter_readsLetter {name : Text} {paren : Char}
    (hname : name.head?.any Char.isAlpha = true) : (delimiter name paren).ReadsLetter :=
  fun _ _ _ h => head_of_word?_bind hname h

theorem pi_readsLetter : pi.ReadsLetter :=
  fun _ _ _ h => head_of_word?_bind (by decide) h

theorem command_readsLetter : command.ReadsLetter := by
  intro t new left h
  simp only [command] at h
  split at h
  · assumption
  · cases h

theorem readsLetter_of_mem {rule : Rule} (h : rule ∈ rules) : rule.ReadsLetter := by
  simp only [rules, List.mem_cons, List.not_mem_nil, or_false] at h
  rcases h with rfl | rfl | rfl | rfl | rfl | rfl | rfl
  · exact fraction_readsLetter
  · exact root_readsLetter
  · exact call_readsLetter
  · exact delimiter_readsLetter (by decide)
  · exact delimiter_readsLetter (by decide)
  · exact pi_readsLetter
  · exact command_readsLetter

theorem rewrite_eq_self {rule : Rule} (h : rule.ReadsLetter) :
    ∀ {t : Text}, ¬HasCommand t → rule.rewrite t = t
  | [], _ => Rule.rewrite_nil
  | c :: t, ht => by
    rw [hasCommand_cons, not_or] at ht
    have ih := rewrite_eq_self h ht.2
    by_cases hc : c = '\\'
    · subst hc
      have hnone : rule.apply t = none := by
        rcases happly : rule.apply t with _ | ⟨new, left⟩
        · rfl
        · exact absurd ⟨rfl, h happly⟩ ht.1
      rw [Rule.rewrite_none hnone, ih]
    · rw [Rule.rewrite_cons hc, ih]

theorem foldl_rewrite_eq_self {t : Text} (ht : ¬HasCommand t) :
    ∀ {rs : List Rule}, (∀ rule ∈ rs, rule.ReadsLetter) →
      rs.foldl (fun t rule => rule.rewrite t) t = t
  | [], _ => rfl
  | rule :: rs, h => by
    rw [List.foldl_cons, rewrite_eq_self (h rule List.mem_cons_self) ht]
    exact foldl_rewrite_eq_self ht fun r hr => h r (List.mem_cons_of_mem rule hr)

theorem toCanonical_eq_self {t : Text} (ht : ¬HasCommand t) : toCanonical t = t :=
  foldl_rewrite_eq_self ht fun _ => readsLetter_of_mem

end Rules

section Removal

/-- Where the last rule removes commands, what comes in their place begins as what stood behind them
does, and that is with no letter. -/
theorem not_hasCommand_rewrite (t : Text) : ¬HasCommand (command.rewrite t)
    ∧ (¬t.head?.any Char.isAlpha = true → ¬(command.rewrite t).head?.any Char.isAlpha = true) := by
  fun_induction Rule.rewrite command t with
  | case1 => exact ⟨not_hasCommand_nil, id⟩
  | case2 rest new left happly ih =>
    simp only [command] at happly
    split at happly
    · cases happly
      -- what is left begins behind all the letters, so its rewriting begins with no letter
      obtain ⟨hno, hhead⟩ := ih
      exact ⟨hno, fun _ => hhead (head_dropWhile _ rest)⟩
    · cases happly
  | case3 rest happly ih =>
    simp only [command] at happly
    split at happly
    · cases happly
    · rename_i hrest
      refine ⟨?_, id⟩
      rw [hasCommand_cons, not_or]
      exact ⟨fun h => ih.2 hrest h.2, ih.1⟩
  | case4 c rest hc ih =>
    refine ⟨?_, id⟩
    rw [hasCommand_cons, not_or]
    exact ⟨fun h => hc h.1, ih.1⟩

theorem not_hasCommand_toCanonical (t : Text) : ¬HasCommand (toCanonical t) :=
  (not_hasCommand_rewrite _).1

end Removal

/-- A canonical text has no command, a text without commands is canonical as it stands, and so in
both modes a canonical text has the evaluation of the text that it comes from. -/
theorem toCanonical_fixed (t : Text) :
    ¬HasCommand (toCanonical t)
      ∧ (toCanonical t = t ↔ ¬HasCommand t)
      ∧ toCanonical (toCanonical t) = toCanonical t
      ∧ ∀ mode, evaluate mode (toCanonical t) = evaluate .latex t := by
  have hno := not_hasCommand_toCanonical t
  have hidem := toCanonical_eq_self hno
  refine ⟨hno, ⟨fun h => h ▸ hno, toCanonical_eq_self⟩, hidem, fun mode => ?_⟩
  have hmode : mode.canonical (toCanonical t) = Mode.canonical .latex t := by
    cases mode with
    | ascii => rfl
    | latex => exact hidem
  simp only [evaluate, hmode]

end TexCalc.Latex
