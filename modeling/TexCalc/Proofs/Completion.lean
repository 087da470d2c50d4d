import Mathlib.Data.List.Infix
import TexCalc.Proofs.Groups
import TexCalc.Proofs.Trimming

/-!
# The least completion

What is appended to a text to close its parentheses depends only on how many of each kind it has.
Whether that completes the text depends on its beginnings: if none of them closes more parentheses
than it opens, the text is completed (`matched_closeParens`), and otherwise nothing appended to it
could do so (`inside_of_matched_append`). What does complete it appends at least as many closing
parentheses (`missing_le_count_of_matched_append`). The main statement is `closeParens_least`.
-/

namespace TexCalc

/-- How many parentheses a text leaves open. -/
def Text.missing (t : Text) : Nat :=
  t.count '(' - t.count ')'

section Completion

variable {t u : Text}

theorem closeParens_eq (t : Text) : closeParens t = t ++ List.replicate t.missing ')' :=
  rfl

theorem closeParens_closeParens (t : Text) : closeParens (closeParens t) = closeParens t :=
  closeParens_eq_self (surplus_closeParens t)

theorem surplus_nonneg_iff : 0 ≤ t.surplus ↔ t.count ')' ≤ t.count '(' := by
  rw [Text.surplus]
  omega

theorem natCast_missing (h : 0 ≤ t.surplus) : (t.missing : Int) = t.surplus := by
  rw [Text.missing, Text.surplus] at *
  omega

/-- A text that closes only what it has opened is completed. -/
theorem matched_closeParens (h : ∀ w : Text, w <+: t → 0 ≤ w.surplus) : (closeParens t).Matched := by
  have hmissing := natCast_missing (h t (List.prefix_refl t))
  rw [closeParens_eq]
  constructor
  · intro w hw
    rcases List.prefix_or_prefix_of_prefix hw (List.prefix_append t _) with hinside | ⟨v, rfl⟩
    · exact h w hinside
    · rw [List.prefix_append_right_inj, List.prefix_replicate_iff] at hw
      rw [surplus_append, hw.2, surplus_replicate]
      omega
  · rw [surplus_append, surplus_replicate]
    omega

/-- What can be completed closes only what it has opened. -/
theorem inside_of_matched_append (h : (t ++ u).Matched) : ∀ w : Text, w <+: t → 0 ≤ w.surplus :=
  fun w hw => h.inside w (hw.trans (List.prefix_append t u))

theorem exists_matched_append_iff :
    (∃ u, (t ++ u).Matched) ↔ ∀ w : Text, w <+: t → 0 ≤ w.surplus :=
  ⟨fun ⟨_, h⟩ => inside_of_matched_append h, fun h => ⟨_, matched_closeParens h⟩⟩

theorem missing_le_count_of_matched_append (h : (t ++ u).Matched) : t.missing ≤ u.count ')' := by
  have hmissing := natCast_missing (inside_of_matched_append h t (List.prefix_refl t))
  have hwhole := h.whole
  rw [surplus_append, ← hmissing, Text.surplus] at hwhole
  omega

end Completion

/-- Only closing parentheses are appended, and none to what has been completed. A text is completed
exactly if something appended to it could match its parentheses, which is if no beginning of it
closes more of them than it opens. Then nothing shorter matches them, and nothing else of the same
length. -/
theorem closeParens_least (t : Text) : closeParens t = t ++ List.replicate t.missing ')'
    ∧ closeParens (closeParens t) = closeParens t
    ∧ ((closeParens t).Matched ↔ ∃ u, (t ++ u).Matched)
    ∧ ((∃ u, (t ++ u).Matched) ↔ ∀ w : Text, w <+: t → w.count ')' ≤ w.count '(')
    ∧ ∀ u, (t ++ u).Matched →
      t.missing ≤ u.length ∧ (u.length = t.missing → u = List.replicate t.missing ')') := by
  refine ⟨rfl, closeParens_closeParens t, ⟨fun h => ⟨_, h⟩, fun h => ?_⟩, ?_, fun u h => ?_⟩
  · exact matched_closeParens (exists_matched_append_iff.1 h)
  · simp only [exists_matched_append_iff, surplus_nonneg_iff]
  · have hcount := missing_le_count_of_matched_append h
    have hlength := List.count_le_length (a := ')') (l := u)
    refine ⟨hcount.trans hlength, fun heq => ?_⟩
    have hall : u.count ')' = u.length := by omega
    exact List.eq_replicate_iff.2 ⟨heq, fun c hc => (List.count_eq_length.1 hall c hc).symm⟩

/-- Two parentheses complete `ln(2)*((3`, and `-1)/4)` does with two of its own. Nothing completes
`1)+(`, and nothing is appended to it. -/
theorem closeParens_least_product :
    closeParens "ln(2)*((3".toList = "ln(2)*((3))".toList
      ∧ Text.Matched "ln(2)*((3))".toList
      ∧ Text.Matched "ln(2)*((3-1)/4)".toList
      ∧ Text.missing "ln(2)*((3".toList ≤ "-1)/4)".toList.length
      ∧ closeParens "1)+(".toList = "1)+(".toList
      ∧ ∀ u : Text, ¬Text.Matched ("1)+(".toList ++ u) := by
  have hmatched : Text.Matched ("ln(2)*((3".toList ++ "-1)/4)".toList) := by decide
  obtain ⟨happended, -, hiff, -, hleast⟩ := closeParens_least "ln(2)*((3".toList
  obtain ⟨hnone, -, -, hinside, -⟩ := closeParens_least "1)+(".toList
  refine ⟨happended, hiff.2 ⟨_, hmatched⟩, hmatched, (hleast _ hmatched).1, hnone, fun u hu => ?_⟩
  exact absurd (hinside.1 ⟨u, hu⟩ "1)".toList (by decide)) (by decide)

end TexCalc
