import TexCalc.Proofs.LexicalFailure
import TexCalc.Proofs.Program
import TexCalc.Proofs.Reframing
import TexCalc.Proofs.Steps
import TexCalc.Session.Basic

/-!
# Parentheses from the entry to the postfix order

A submission closes the parentheses of the entry before the entry is rewritten. No rule changes by
how many parentheses a text opens more than it closes (`surplus_toCanonical`), although a rule may
write parentheses and may take up those that were added. The lexer makes one token of each
parenthesis (`sameParens_of_reads`), and what waits for the postfix order has as many groups open as
the tokens read so far have opened more than closed (`count_run`). So no group is left open at the
end (`submit_closes_groups`).
-/

namespace TexCalc

/-- By how many a text opens more parentheses than it closes. -/
def Text.surplus (t : Text) : Int :=
  t.count '(' - t.count ')'

section Rules

open Text (surplus)

@[simp] theorem surplus_append (t u : Text) : surplus (t ++ u) = surplus t + surplus u := by
  simp only [surplus, List.count_append]
  omega

@[simp] theorem surplus_cons (c : Char) (t : Text) :
    surplus (c :: t) = (if c = '(' then 1 else if c = ')' then -1 else 0) + surplus t := by
  by_cases hopen : c = '('
  · simp [surplus, hopen]
    omega
  by_cases hclose : c = ')'
  · simp [surplus, hclose]
    omega
  simp [surplus, hopen, hclose]

/-- Rewriting opens as many parentheses more than it closes as the text does. -/
theorem Latex.surplus_toCanonical (t : Text) : surplus (toCanonical t) = surplus t := by
  have hcount := (reframes_toCanonical t).count_eq
  simp only [surplus]
  omega

theorem surplus_canonical (mode : Mode) (t : Text) : surplus (mode.canonical t) = surplus t := by
  cases mode with
  | ascii => rfl
  | latex => exact Latex.surplus_toCanonical t

theorem surplus_replicate (n : Nat) : surplus (List.replicate n ')') = -n := by
  induction n with
  | zero => rfl
  | succ n ih =>
    rw [List.replicate_succ, surplus_cons, ih]
    simp only [Char.reduceEq, ↓reduceIte]
    omega

theorem surplus_closeParens (t : Text) : surplus (closeParens t) ≤ 0 := by
  rw [closeParens, surplus_append, surplus_replicate, surplus]
  omega

end Rules

section Tokens

/-- The tokens are as many parentheses of each kind as the text. -/
def SameParens (ts : List Token) (t : Text) : Prop :=
  ts.count .openParen = t.count '(' ∧ ts.count .closeParen = t.count ')'

theorem SameParens.append {ts us : List Token} {t u : Text} (h : SameParens ts t)
    (h' : SameParens us u) : SameParens (ts ++ us) (t ++ u) := by
  simp only [SameParens, List.count_append, h.1, h.2, h'.1, h'.2, and_self]

theorem sameParens_of_ne {ts : List Token} {t : Text}
    (hts : ∀ tok ∈ ts, tok ≠ .openParen ∧ tok ≠ .closeParen) (ht : ∀ c ∈ t, c ≠ '(' ∧ c ≠ ')') :
    SameParens ts t := by
  have hopen : ts.count .openParen = 0 := List.count_eq_zero.2 fun h => (hts _ h).1 rfl
  have hclose : ts.count .closeParen = 0 := List.count_eq_zero.2 fun h => (hts _ h).2 rfl
  rw [SameParens, hopen, hclose]
  exact ⟨(List.count_eq_zero.2 fun h => (ht _ h).1 rfl).symm,
    (List.count_eq_zero.2 fun h => (ht _ h).2 rfl).symm⟩

theorem sameParens_blank {gap : Text} (blank : gap.isBlank = true) : SameParens [] gap := by
  refine sameParens_of_ne (by simp) fun c hc => ?_
  have hblank := List.all_eq_true.1 blank c hc
  constructor <;> rintro rfl <;> revert hblank <;> decide

theorem surplus_blank {t : Text} (blank : t.isBlank = true) : t.surplus = 0 := by
  obtain ⟨hopen, hclose⟩ := sameParens_blank blank
  rw [Text.surplus, ← hopen, ← hclose]
  rfl

theorem Lexeme.sameParens {t : Token} {w : Text} (h : Lexeme t w) : SameParens [t] w := by
  have hletter : ∀ c : Char, c.isAlpha = true → c ≠ '(' ∧ c ≠ ')' := by
    intro c hc
    constructor <;> rintro rfl <;> cases hc
  have hnumeric : ∀ c : Char, isNumeric c = true → c ≠ '(' ∧ c ≠ ')' := by
    intro c hc
    constructor <;> rintro rfl <;> cases hc
  cases h with
  | number h =>
    refine sameParens_of_ne (by simp) fun c hc => ?_
    cases h with
    | unsigned h => exact hnumeric c (h.isNumeric c hc)
    | signed sign h =>
      rcases List.mem_cons.1 hc with rfl | hc
      · rcases sign with rfl | rfl <;> decide
      · exact hnumeric c (h.isNumeric c hc)
  | constant k =>
    exact sameParens_of_ne (by simp) fun c hc => hletter c (k.isAlpha_of_mem_name c hc)
  | operator op =>
    exact sameParens_of_ne (by simp) (List.forall_mem_singleton.2 (by cases op <;> decide))
  | function f =>
    exact sameParens_of_ne (by simp) fun c hc => hletter c (f.isAlpha_of_mem_name c hc)
  | unknown _ letters => exact sameParens_of_ne (by simp) fun c hc => hletter c (letters c hc)
  | openParen => exact ⟨rfl, rfl⟩
  | closeParen => exact ⟨rfl, rfl⟩

/-- The lexer makes a token of each parenthesis, and of nothing else. -/
theorem sameParens_of_reads {signAllowed : Bool} {t : Text} {ts : List Token}
    (h : Reads signAllowed t ts) : SameParens ts t := by
  induction h using Reads.induction with
  | nothing blank => exact sameParens_blank blank
  | lexeme blank lexeme _ _ ih =>
    exact (sameParens_blank blank).append (lexeme.sameParens.append ih)

theorem surplus_ofText {t : Text} {ts : List Token} (h : Token.ofText t = .ok ts) :
    t.surplus = ts.count .openParen - ts.count .closeParen := by
  obtain ⟨hopen, hclose⟩ : SameParens ts t := sameParens_of_reads h
  rw [Text.surplus, hopen, hclose]

end Tokens

namespace Postfix

/-- An open parenthesis opens one group, a closing one closes one, and other tokens none. -/
theorem count_step {pending left : List Pending} {t : Token} {out : List Token}
    (h : step pending t = .ok (out, left)) :
    left.count .group + [t].count .closeParen = pending.count .group + [t].count .openParen := by
  cases effect_of_step h with
  | pass value => cases t <;> cases value <;> rfl
  | @wait gone below w noGroup _ =>
    rw [List.count_append, List.count_eq_zero.2 noGroup, Nat.zero_add]
    cases w <;> simp [Pending.token]
  | @close inner call left innermost noGroup =>
    have hpending : (inner ++ .group :: (call ++ left)).count .group = left.count .group + 1 := by
      rw [List.count_append, List.count_cons_self, List.count_append,
        List.count_eq_zero.2 innermost, List.count_eq_zero.2 noGroup, Nat.zero_add, Nat.zero_add]
    rw [hpending]
    rfl

/-- As many groups wait as are open. -/
theorem count_run {ts : List Token} : ∀ {pending left : List Pending} {out : List Token},
    run pending ts = .ok (out, left) →
      left.count .group + ts.count .closeParen = pending.count .group + ts.count .openParen := by
  induction ts with
  | nil =>
    intro pending left out h
    cases h
    rfl
  | cons t ts ih =>
    intro pending left out h
    obtain ⟨first, next, further, hs, hr, -⟩ := run_cons_eq_ok_iff.1 h
    have hstep := count_step hs
    have hrest := ih hr
    rw [← List.singleton_append, List.count_append, List.count_append]
    omega

theorem group_mem_of_flush {pending : List Pending} {cause : Failure}
    (h : flush pending = .error cause) : .group ∈ pending := by
  by_contra hgroup
  rw [flush_eq hgroup] at h
  cases h

/-- Only at the end is a group found open. -/
theorem run_error {cause : Failure} : ∀ {ts : List Token} {pending : List Pending},
    run pending ts = .error cause → cause = .unmatchedClose ∨ ∃ name, cause = .unknownName name
  | [], _, h => by cases h
  | t :: ts, pending, h => by
    rcases run_cons_eq_error_iff.1 h with hs | ⟨first, next, -, hr⟩
    · exact step_error hs
    · exact run_error hr

/-- Where the tokens close as many groups as they open, the only parenthesis in the wrong place is
one that closes nothing. -/
theorem ofInfix_error {ts : List Token} {cause : Failure}
    (h : ts.count .openParen ≤ ts.count .closeParen) (horder : ofInfix ts = .error cause) :
    cause = .unmatchedClose ∨ ∃ name, cause = .unknownName name := by
  rcases hr : run [] ts with cause' | ⟨out, left⟩
  · rw [ofInfix, hr] at horder
    cases horder
    exact run_error hr
  rw [ofInfix, hr] at horder
  change (flush left >>= _) = _ at horder
  rcases hf : flush left with cause' | last
  · have hgroup := List.count_pos_iff.2 (group_mem_of_flush hf)
    have hcount := count_run hr
    rw [List.count_nil] at hcount
    omega
  · rw [hf] at horder
    cases horder

end Postfix

section Causes

theorem value_ne_unclosedGroup (program : List Token) :
    Machine.value program ≠ .error .unclosedGroup := by
  intro h
  rcases Machine.error_of_value h with ⟨left, hcause⟩ | ⟨_, t, _, _, _, -, -, hrefuses⟩
  · cases hcause
  · cases hrefuses

/-- The first stage that fails decides the failure. -/
theorem stage_of_evaluate_error {mode : Mode} {t : Text} {cause : Failure}
    (h : evaluate mode t = .error cause) :
    Token.ofText (mode.canonical t) = .error cause
      ∨ ∃ ts, Token.ofText (mode.canonical t) = .ok ts ∧ (Postfix.ofInfix ts = .error cause
        ∨ ∃ program, Postfix.ofInfix ts = .ok program ∧ Machine.value program = .error cause) := by
  rcases hts : Token.ofText (mode.canonical t) with cause' | ts
  · rw [evaluate, hts] at h
    cases h
    exact .inl rfl
  rw [evaluate, hts] at h
  change (Postfix.ofInfix ts >>= _) = _ at h
  rcases hprogram : Postfix.ofInfix ts with cause' | program
  · rw [hprogram] at h
    cases h
    exact .inr ⟨ts, rfl, .inl hprogram⟩
  rw [hprogram] at h
  change (Machine.value program >>= _) = _ at h
  rcases hvalue : Machine.value program with cause' | x <;> rw [hvalue] at h <;> cases h
  exact .inr ⟨ts, rfl, .inr ⟨program, hprogram, hvalue⟩⟩

/-- A text that closes as many parentheses as it opens has no group left open, whatever the
rewriting makes of it. -/
theorem evaluate_ne_unclosedGroup {mode : Mode} {t : Text}
    (h : ∀ ts, Token.ofText (mode.canonical t) = .ok ts →
      ts.count .openParen ≤ ts.count .closeParen) : evaluate mode t ≠ .error .unclosedGroup := by
  intro hopen
  rcases stage_of_evaluate_error hopen with hscan | ⟨ts, hts, horder | ⟨program, -, hvalue⟩⟩
  · rcases scan_error true 0 _ hscan with ⟨_, _, hcause⟩ | ⟨_, _, hcause⟩ <;> cases hcause
  · rcases Postfix.ofInfix_error (h ts hts) horder with hcause | ⟨name, hcause⟩ <;> cases hcause
  · exact value_ne_unclosedGroup program hvalue

/-- The sentence on an open group is no other failure's: each differs from it in one of the first
thirty-six characters. -/
theorem message_eq_unclosedGroup_iff {cause : Failure} :
    cause.message = Failure.unclosedGroup.message ↔ cause = .unclosedGroup := by
  constructor
  · intro h
    have hchar : ∀ n, (cause.message.drop n).head? = (Failure.unclosedGroup.message.drop n).head? :=
      fun n => by rw [h]
    cases cause with
    | unclosedGroup => rfl
    | unmatchedClose => exact absurd (hchar 35) (by decide)
    | unknownName name => cases (show some 'i' = some 'p' from hchar 19)
    | misplacedToken token => cases (show some 'j' = some 'p' from hchar 19)
    | unexpectedChar c position => cases (show some 'c' = some 'e' from hchar 0)
    | malformedNumber lexeme position => cases (show some 'n' = some 'e' from hchar 0)
    | missingOperand op => cases (show some 'o' = some 'e' from hchar 0)
    | missingArgument f => cases (show some 'o' = some 'e' from hchar 0)
    | negativeRoot x => cases (show some 'h' = some 'e' from hchar 0)
    | divisionByZero => exact absurd (hchar 0) (by decide)
    | unbalancedStack left => cases (show some 'x' = some 'r' from hchar 1)
  · rintro rfl
    rfl

end Causes

theorem Session.submit_report {s : Session} (h : s.entry.isBlank = false) :
    s.submit.report = (answer s.mode s.digits (closeParens s.entry.trim)).2 := by
  rw [submit, if_neg (by simp [h])]

/-- What a submission evaluates never has a group left open: its canonical text closes as many
parentheses as it opens, so the only one in the wrong place is one that closes nothing. -/
theorem submit_closes_groups (s : Session) (h : s.entry.isBlank = false) :
    (∀ ts, Token.ofText (s.mode.canonical (closeParens s.entry.trim)) = .ok ts →
        ts.count .openParen ≤ ts.count .closeParen
          ∧ ∀ cause, Postfix.ofInfix ts = .error cause →
            cause = .unmatchedClose ∨ ∃ name, cause = .unknownName name)
      ∧ evaluate s.mode (closeParens s.entry.trim) ≠ .error .unclosedGroup
      ∧ s.submit.report.message ≠ Failure.unclosedGroup.message := by
  have hcount : ∀ ts, Token.ofText (s.mode.canonical (closeParens s.entry.trim)) = .ok ts →
      ts.count .openParen ≤ ts.count .closeParen := by
    intro ts hts
    have hsurplus := surplus_ofText hts
    have hclosed := surplus_closeParens s.entry.trim
    rw [surplus_canonical] at hsurplus
    omega
  have hevaluate := evaluate_ne_unclosedGroup hcount
  refine ⟨fun ts hts => ⟨hcount ts hts, fun cause => Postfix.ofInfix_error (hcount ts hts)⟩,
    hevaluate, ?_⟩
  rw [Session.submit_report h, answer]
  rcases he : evaluate s.mode (closeParens s.entry.trim) with cause | evaluation
  · rw [he, Ne, Except.error.injEq] at hevaluate
    exact fun hmessage => hevaluate (message_eq_unclosedGroup_iff.1 hmessage)
  · exact nofun

/-- The sine takes up `(1+` as its argument and closes it. Both parentheses that were added stand
behind `2`: one closes that of `\left(`, the other one makes up for the one in the argument. -/
theorem submit_closes_bare_argument :
    Text.isBlank " \\sin (1+\\left(2 ".toList = false
      ∧ closeParens (Text.trim " \\sin (1+\\left(2 ".toList) = "\\sin (1+\\left(2))".toList
      ∧ Mode.canonical .latex "\\sin (1+\\left(2))".toList = "sin((1+)(2))".toList
      ∧ (Session.submit { entry := " \\sin (1+\\left(2 ".toList }).report.message
        ≠ Failure.unclosedGroup.message := by
  have hentry : Text.isBlank " \\sin (1+\\left(2 ".toList = false := by decide
  exact ⟨hentry, by decide, by decide +kernel, (submit_closes_groups _ hentry).2.2⟩

end TexCalc
