import TexCalc.Proofs.Canonical
import TexCalc.Proofs.Groups
import TexCalc.Proofs.Translation

/-!
# Where a fraction is one operand

A fraction becomes the quotient of two groups without parentheses around it. What stands beside it
may take it apart: an operator in front of it that goes before a division takes the numerator alone,
a function does too, and a power behind it takes the denominator. Where neither happens
(`FractionPlace`) the postfix order is that of the quotient in parentheses, since the division is
let go first by whatever follows (`finish_divide`). The main statement is `evaluate_fraction`.
-/

namespace TexCalc

/-- The quotient of two texts in parentheses. -/
def Text.quotient (a b : Text) : Text :=
  a.parenthesised ++ '/' :: b.parenthesised

/-- The tokens of a quotient. -/
def Token.quotient (as bs : List Token) : List Token :=
  .openParen :: (as ++ [.closeParen]) ++ .operator .divide :: .openParen :: (bs ++ [.closeParen])

namespace Latex

/-- A fraction whose groups stand directly behind its name and each other. -/
def fractionOf (a b : Text) : Text :=
  '\\' :: "frac".toList ++ group [] a ++ group [] b

end Latex

/-- Nothing beside this place takes apart a fraction that stands there: in front of it no function
waits and no operator that goes before a division, and behind it stands no power and no further
operand. -/
structure FractionPlace (u v : Text) : Prop where
  left : ∀ us out waiting, Reads true u us → Postfix.run [] us = .ok (out, waiting) →
    ∀ w ∈ waiting.head?, w ∈ [.group, .operator .plus, .operator .minus]
  right : ∀ vs, Reads false v vs →
    ∀ t ∈ vs.head?, t = .closeParen ∨ ∃ op, op ≠ .power ∧ t = .operator op

namespace Postfix

section Fraction

variable {pending : List Pending} {ts as bs : List Token}

theorem step_divide (pending : List Pending) {t : Token}
    (h : t = .closeParen ∨ ∃ op, op ≠ .power ∧ t = .operator op) :
    step (.operator .divide :: pending) t
      = (step pending t).map fun r => (.operator .divide :: r.1, r.2) := by
  rcases h with rfl | ⟨op, hop, rfl⟩
  · simp only [step, closeGroup?]
    rcases closeGroup? pending with _ | ⟨inner, below⟩ <;> rfl
  · have hprecedes : Operator.divide.precedes op = true := by
      cases op <;> first | rfl | exact absurd rfl hop
    simp only [step, yieldTo, if_pos hprecedes]
    rfl

theorem finish_divide (pending : List Pending)
    (h : ∀ t ∈ ts.head?, t = .closeParen ∨ ∃ op, op ≠ .power ∧ t = .operator op) :
    finish (.operator .divide :: pending) ts
      = (finish pending ts).map (.operator .divide :: ·) := by
  cases ts with
  | nil =>
    simp only [finish, run, Except.bind, flush]
    cases flush pending <;> rfl
  | cons t ts =>
    have hstep := step_divide pending (h t rfl)
    rcases hs : step pending t with cause | ⟨out, next⟩ <;> rw [hs] at hstep
    · rw [finish, finish, run, run, hs, hstep]
      rfl
    · rw [finish, finish, run_cons ts hstep, run_cons ts hs]
      rcases run next ts with cause | ⟨further, left⟩
      · rfl
      · simp only [Except.map, Except.bind]
        cases flush left <;> rfl

theorem run_bracketed (ha : Closed as) (hb : Closed bs)
    (hcall : closeCall pending = ([], pending)) :
    run pending (.openParen :: (Token.quotient as bs ++ [.closeParen]))
      = (ofInfix as).bind fun above => (ofInfix bs).map fun below =>
        (above ++ below ++ [.operator .divide], pending) := by
  have hopen : step pending .openParen = .ok ([], .group :: pending) := rfl
  have hinside : run (.group :: pending) (Token.quotient as bs) = _ :=
    run_betweenGroups .divide ha hb rfl rfl
  have hclose : run ([.operator .divide] ++ .group :: pending) [.closeParen] = _ :=
    run_closeParen (by simp)
  rw [run_cons _ hopen]
  generalize ofInfix as = numerator at hinside ⊢
  generalize ofInfix bs = denominator at hinside ⊢
  rcases numerator with cause | above
  · rw [run_append_error hinside]
    rfl
  rcases denominator with cause | below
  · rw [run_append_error hinside]
    rfl
  · rw [run_append_ok hinside hclose, hcall]
    simp [Except.map, Except.bind, Pending.token]

theorem finish_quotient (ha : Closed as) (hb : Closed bs)
    (hleft : ∀ w ∈ pending.head?, w ∈ [.group, .operator .plus, .operator .minus])
    (hright : ∀ t ∈ ts.head?, t = .closeParen ∨ ∃ op, op ≠ .power ∧ t = .operator op) :
    finish pending (.openParen :: (Token.quotient as bs ++ [.closeParen]) ++ ts)
      = finish pending (Token.quotient as bs ++ ts) := by
  have hcall : closeCall pending = ([], pending) := by
    rcases pending with _ | ⟨_ | _ | _, pending⟩ <;> first | rfl | simp at hleft
  have hyield : yieldTo .divide pending = ([], pending) := by
    rcases pending with _ | ⟨op | _ | _, pending⟩ <;> first | rfl | simp at hleft
    rcases hleft with rfl | rfl <;> rfl
  have hbracketed := run_bracketed ha hb hcall
  have hquotient : run pending (Token.quotient as bs) = _ :=
    run_betweenGroups .divide ha hb hcall hyield
  generalize ofInfix as = numerator at hbracketed hquotient
  generalize ofInfix bs = denominator at hbracketed hquotient
  rcases numerator with cause | above
  · rw [finish_append_error hbracketed, finish_append_error hquotient]
  rcases denominator with cause | below
  · rw [finish_append_error hbracketed, finish_append_error hquotient]
  · rw [finish_append hbracketed, finish_append hquotient, finish_divide pending hright]
    cases finish pending ts <;> simp [Except.map]

theorem ofInfix_quotient {us vs : List Token} (ha : Closed as) (hb : Closed bs)
    (hleft : ∀ out waiting, run [] us = .ok (out, waiting) →
      ∀ w ∈ waiting.head?, w ∈ [.group, .operator .plus, .operator .minus])
    (hright : ∀ t ∈ vs.head?, t = .closeParen ∨ ∃ op, op ≠ .power ∧ t = .operator op) :
    ofInfix (us ++ (.openParen :: (Token.quotient as bs ++ [.closeParen]) ++ vs))
      = ofInfix (us ++ (Token.quotient as bs ++ vs)) := by
  rw [ofInfix_eq_finish, ofInfix_eq_finish]
  rcases hr : run [] us with cause | ⟨out, waiting⟩
  · rw [finish_append_error hr, finish_append_error hr]
  · rw [finish_append hr, finish_append hr, finish_quotient ha hb (hleft out waiting hr) hright]

end Fraction

end Postfix

namespace Latex

theorem toCanonical_fraction {a b u v : Text} (ha : IsInner a) (hb : IsInner b)
    (hplain : ∀ c ∈ u ++ a ++ b ++ v, c ≠ '\\') :
    toCanonical (u ++ fractionOf a b ++ v) = u ++ Text.quotient a b ++ v := by
  simp only [List.forall_mem_append] at hplain
  obtain ⟨⟨⟨hu, ha'⟩, hb'⟩, hv⟩ := hplain
  have hquotient : '(' :: a ++ ")/(".toList ++ b ++ [')'] = Text.quotient a b := by
    simp [Text.quotient, Text.parenthesised]
  have htake : fraction.Turns (fractionOf a b) (Text.quotient a b) :=
    .take fun s => hquotient ▸ fraction_apply_groups rfl rfl ha hb
  have hturns := ((Rule.Turns.plain hu).append htake).append (Rule.Turns.plain hv)
  have hdone : ¬HasCommand (u ++ Text.quotient a b ++ v) := by
    refine not_hasCommand_of_plain ?_
    simp only [← hquotient, List.forall_mem_append, List.forall_mem_cons]
    exact ⟨⟨hu, ⟨⟨⟨by simp, ha'⟩, by simp⟩, hb'⟩, by simp⟩, hv⟩
  rw [toCanonical, rules, List.foldl_cons, hturns.eq]
  exact foldl_rewrite_eq_self hdone fun rule hrule =>
    readsLetter_of_mem (List.mem_cons_of_mem fraction hrule)

end Latex

section Texts

variable {a b u v rest : Text} {signAllowed : Bool} {ts : List Token}

theorem reads_quotient_iff : Reads signAllowed (a.quotient b ++ rest) ts
    ↔ ∃ as bs back, Reads true a as ∧ Reads true b bs ∧ Reads false rest back
      ∧ ts = Token.quotient as bs ++ back :=
  reads_operation_iff .divide

theorem reads_bracketed_iff : Reads signAllowed ((a.quotient b).parenthesised ++ rest) ts
    ↔ ∃ as bs back, Reads true a as ∧ Reads true b bs ∧ Reads false rest back
      ∧ ts = .openParen :: (Token.quotient as bs ++ [.closeParen]) ++ back := by
  have hnil : ∀ ts, Reads false [] ts ↔ ts = [] := fun ts => reads_blank_iff rfl
  have hinside : ∀ ts, Reads true (a.quotient b) ts
      ↔ ∃ as bs, Reads true a as ∧ Reads true b bs ∧ ts = Token.quotient as bs := by
    intro ts
    rw [← List.append_nil (a.quotient b), reads_quotient_iff]
    simp [hnil]
  simp only [reads_parenthesised_iff, hinside]
  constructor
  · rintro ⟨_, back, ⟨as, bs, has, hbs, rfl⟩, hback, rfl⟩
    exact ⟨as, bs, back, has, hbs, hback, rfl⟩
  · rintro ⟨as, bs, back, has, hbs, hback, rfl⟩
    exact ⟨_, back, ⟨as, bs, has, hbs, rfl⟩, hback, rfl⟩

/-- A fraction whose numerator and denominator have matching parentheses, in a place where nothing
takes it apart, is an operand as if it stood in parentheses. -/
theorem evaluate_fraction (ha : Latex.IsInner a) (hb : Latex.IsInner b)
    (hplain : ∀ c ∈ u ++ a ++ b ++ v, c ≠ '\\') (hmatched : a.Matched ∧ b.Matched)
    (hplace : FractionPlace u v) (x : Float) :
    (evaluate .latex (u ++ Latex.fractionOf a b ++ v)).map (·.value) = .ok x
      ↔ (evaluate .ascii (u ++ (a.quotient b).parenthesised ++ v)).map (·.value) = .ok x := by
  have horder : ∀ {us as bs vs : List Token}, Reads true u us → Reads true a as → Reads true b bs →
      Reads false v vs →
      Postfix.ofInfix (us ++ (.openParen :: (Token.quotient as bs ++ [.closeParen]) ++ vs))
        = Postfix.ofInfix (us ++ (Token.quotient as bs ++ vs)) := fun hus has hbs hvs =>
    Postfix.ofInfix_quotient (closed_of_matched has hmatched.1) (closed_of_matched hbs hmatched.2)
      (fun out waiting => hplace.left _ out waiting hus) (hplace.right _ hvs)
  have hbare : EndsLexeme (a.quotient b ++ v) := endsLexeme_openParen
  have hbracketed : EndsLexeme ((a.quotient b).parenthesised ++ v) := endsLexeme_openParen
  rw [evaluate_eq_ok_iff, evaluate_eq_ok_iff, Mode.canonical, Mode.canonical,
    Latex.toCanonical_fraction ha hb hplain, List.append_assoc, List.append_assoc]
  constructor
  · rintro ⟨ts, program, hts, hprogram, hvalue⟩
    obtain ⟨us, _, hus, hback, rfl⟩ := (reads_append_iff hbare).1 hts
    obtain ⟨as, bs, vs, has, hbs, hvs, rfl⟩ := reads_quotient_iff.1 hback
    refine ⟨_, program, (reads_append_iff hbracketed).2 ⟨us, _, hus, ?_, rfl⟩,
      (horder hus has hbs hvs).trans hprogram, hvalue⟩
    exact reads_bracketed_iff.2 ⟨as, bs, vs, has, hbs, hvs, rfl⟩
  · rintro ⟨ts, program, hts, hprogram, hvalue⟩
    obtain ⟨us, _, hus, hback, rfl⟩ := (reads_append_iff hbracketed).1 hts
    obtain ⟨as, bs, vs, has, hbs, hvs, rfl⟩ := reads_bracketed_iff.1 hback
    refine ⟨_, program, (reads_append_iff hbare).2 ⟨us, _, hus, ?_, rfl⟩,
      (horder hus has hbs hvs).symm.trans hprogram, hvalue⟩
    exact reads_quotient_iff.2 ⟨as, bs, vs, has, hbs, hvs, rfl⟩

/-- In `1-\frac{(1+2)}{4}*2` the fraction is taken whole, by the product and with it by the
difference. -/
theorem evaluate_fraction_in_product :
    FractionPlace "1-".toList "*2".toList
      ∧ (evaluate .latex ("1-".toList ++ Latex.fractionOf "(1+2)".toList "4".toList
        ++ "*2".toList)).map (·.value) = .ok (-0.5) := by
  have hleft : Token.scan true 0 "1-".toList = .ok [.number 1, .operator .minus] := by
    decide +kernel
  have hright : Token.scan false 0 "*2".toList = .ok [.operator .times, .number 2] := by
    decide +kernel
  have hplace : FractionPlace "1-".toList "*2".toList := by
    refine ⟨fun us out waiting hus hrun => ?_, fun vs hvs => ?_⟩
    · cases hus.symm.trans hleft
      cases hrun
      simp
    · cases hvs.symm.trans hright
      simp
  have ha : Latex.IsInner "(1+2)".toList := ⟨by simp, by simp [Latex.isBrace]⟩
  have hb : Latex.IsInner "4".toList := ⟨by simp, by simp [Latex.isBrace]⟩
  refine ⟨hplace, (evaluate_fraction ha hb (by simp) (by decide) hplace _).2 ?_⟩
  decide +kernel

/-- With the quotient in parentheses the text has a value, and with the fraction not that one. -/
def TakenApart (u a b v : Text) : Prop :=
  ∃ x, (evaluate .ascii (u ++ (a.quotient b).parenthesised ++ v)).map (·.value) = .ok x
    ∧ (evaluate .latex (u ++ Latex.fractionOf a b ++ v)).map (·.value) ≠ .ok x

/-- Elsewhere a fraction is taken apart: behind a division, a product or a function, which take the
numerator alone, in front of a further operand, and where its groups join the parentheses around
them. -/
theorem fraction_taken_apart :
    TakenApart "8/".toList "4".toList "2".toList []
      ∧ TakenApart "49*".toList "1".toList "49".toList []
      ∧ TakenApart "sqrt".toList "16".toList "4".toList []
      ∧ TakenApart [] "4".toList "2".toList " 3 +".toList
      ∧ TakenApart "2-".toList "1)+(2".toList "1".toList [] := by
  refine ⟨⟨4, ?_, ?_⟩, ⟨0.9999999999999999, ?_, ?_⟩, ⟨2, ?_, ?_⟩, ⟨5, ?_, ?_⟩, ⟨-1, ?_, ?_⟩⟩
  all_goals decide +kernel

end Texts

end TexCalc
