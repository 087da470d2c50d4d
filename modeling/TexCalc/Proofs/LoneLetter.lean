import TexCalc.Proofs.LexicalFailure
import TexCalc.Proofs.Refusal
import TexCalc.Proofs.Rules

/-!
# A letter on its own

A letter behind a text that ends in no letter and in no backslash is a name of its own. No rule takes
it up but for a call that it is the argument of or ends the argument of, and that only encloses it
(`endsAlone_toCanonical`). So where the letter names nothing the text has no value, whatever stands
in front (`evaluate_append_letter`).
-/

namespace TexCalc

/-- A name may begin behind the text: it ends in no letter and in no backslash. -/
def Text.AllowsName (t : Text) : Prop :=
  ∀ c ∈ t.getLast?, c.isAlpha = false ∧ c ≠ '\\'

/-- The text ends in the letter, which stands on its own, and closing parentheses. -/
def Text.EndsAlone (letter : Char) (t : Text) : Prop :=
  ∃ front closers : Text, t = front ++ letter :: closers ∧ front.AllowsName
    ∧ ∀ c ∈ closers, c = ')'

section Ends

open Text (AllowsName EndsAlone)

variable {letter c : Char} {t front : Text}

theorem allowsName_concat : AllowsName (t ++ [c]) ↔ c.isAlpha = false ∧ c ≠ '\\' := by
  simp [AllowsName]

theorem endsAlone_concat :
    EndsAlone letter (t ++ [c]) ↔ (c = ')' ∧ EndsAlone letter t) ∨ (c = letter ∧ AllowsName t) := by
  constructor
  · rintro ⟨front, closers, heq, hfront, hclosers⟩
    rcases List.eq_nil_or_concat' closers with rfl | ⟨closers, d, rfl⟩
    · obtain ⟨rfl, hc⟩ := List.append_inj' heq rfl
      exact .inr ⟨(List.cons.inj hc).1, hfront⟩
    · rw [← List.cons_append, ← List.append_assoc] at heq
      obtain ⟨rfl, hc⟩ := List.append_inj' heq rfl
      refine .inl ⟨(List.cons.inj hc).1.trans (hclosers d (by simp)), front, closers, rfl, hfront, ?_⟩
      exact fun e he => hclosers e (List.mem_append_left _ he)
  · rintro (⟨rfl, front, closers, rfl, hfront, hclosers⟩ | ⟨rfl, ht⟩)
    · refine ⟨front, closers ++ [')'], by simp, hfront, fun e he => ?_⟩
      rcases List.mem_append.1 he with he | he
      · exact hclosers e he
      · exact List.mem_singleton.1 he
    · exact ⟨t, [], rfl, ht, by simp⟩

end Ends

namespace Latex

open Text (AllowsName EndsAlone)

/-- Where a name may begin behind the first text it may behind the second one, and where the letter
ends the first one on its own it ends the second one so. -/
structure Admits (letter : Char) (t u : Text) : Prop where
  name : t.AllowsName → u.AllowsName
  alone : t.EndsAlone letter → u.EndsAlone letter

/-- The second text can stand in the place of the first one, behind all that admits as much. -/
def Replaces (letter : Char) (t u : Text) : Prop :=
  ∀ ⦃front front' : Text⦄, Admits letter front front' → Admits letter (front ++ t) (front' ++ u)

section Replaces

variable {letter c : Char} {t t' u u' v name gap front : Text}

theorem Admits.concat (h : Admits letter t u) (c : Char) : Admits letter (t ++ [c]) (u ++ [c]) := by
  constructor
  · rw [allowsName_concat, allowsName_concat]
    exact id
  · rw [endsAlone_concat, endsAlone_concat]
    exact Or.imp (And.imp_right h.alone) (And.imp_right h.name)

theorem replaces_refl : ∀ t : Text, Replaces letter t t
  | [], front, front', h => by simpa using h
  | c :: t, front, front', h => by
    rw [List.append_cons, List.append_cons front']
    exact replaces_refl t (h.concat c)

theorem Replaces.append (h : Replaces letter t t') (h' : Replaces letter u u') :
    Replaces letter (t ++ u) (t' ++ u') := by
  intro front front' hfront
  rw [← List.append_assoc, ← List.append_assoc]
  exact h' (h hfront)

theorem Replaces.trans (h : Replaces letter t u) (h' : Replaces letter u v) :
    Replaces letter t v := by
  intro front front' hfront
  have hfirst := h (⟨id, id⟩ : Admits letter front front)
  have hsecond := h' hfront
  exact ⟨hsecond.name ∘ hfirst.name, hsecond.alone ∘ hfirst.alone⟩

variable (hletter : letter.isAlpha = true)

include hletter

theorem not_endsAlone_concat (hc : c.isAlpha = false) (hclose : c ≠ ')') :
    ¬EndsAlone letter (t ++ [c]) := by
  rw [endsAlone_concat]
  rintro (⟨rfl, -⟩ | ⟨rfl, -⟩)
  · exact hclose rfl
  · rw [hc] at hletter
    cases hletter

/-- A word behind a backslash is no name of its own, and no name begins behind it. -/
theorem not_endsAlone_word (hname : ∀ c ∈ name, c.isAlpha = true) :
    ¬AllowsName (front ++ '\\' :: name) ∧ ¬EndsAlone letter (front ++ '\\' :: name) := by
  induction name using List.reverseRecOn with
  | nil =>
    rw [allowsName_concat]
    exact ⟨fun h => h.2 rfl, not_endsAlone_concat hletter rfl (by decide)⟩
  | append_singleton name c ih =>
    obtain ⟨hallows, -⟩ := ih fun e he => hname e (List.mem_append_left _ he)
    have hc := hname c (by simp)
    rw [← List.cons_append, ← List.append_assoc, allowsName_concat, endsAlone_concat]
    refine ⟨fun h => by simp [hc] at h, ?_⟩
    rintro (⟨rfl, -⟩ | ⟨-, h⟩)
    · cases hc
    · exact hallows h

theorem not_endsAlone_gap (hname : ∀ c ∈ name, c.isAlpha = true) (blank : gap.isBlank = true) :
    ¬EndsAlone letter (front ++ '\\' :: (name ++ gap)) := by
  rcases List.eq_nil_or_concat' gap with rfl | ⟨gap, c, rfl⟩
  · rw [List.append_nil]
    exact (not_endsAlone_word hletter hname).2
  · have hblank : isBlank c = true := List.all_eq_true.1 blank c (by simp)
    rw [← List.append_assoc, ← List.cons_append, ← List.append_assoc]
    refine not_endsAlone_concat hletter (blank_classes hblank).2.1 ?_
    rintro rfl
    cases hblank

theorem replaces_of_last (hc : c.isAlpha = false) (hclose : c ≠ ')') (t u : Text) :
    Replaces letter (t ++ [c]) (u ++ [')']) := by
  intro front front' _
  rw [← List.append_assoc, ← List.append_assoc]
  exact ⟨fun _ => allowsName_concat.2 (by decide),
    fun h => absurd h (not_endsAlone_concat hletter hc hclose)⟩

theorem replaces_word (hname : ∀ c ∈ name, c.isAlpha = true) (u : Text) :
    Replaces letter ('\\' :: name) u := fun _ _ _ =>
  ⟨fun h => absurd h (not_endsAlone_word hletter hname).1,
    fun h => absurd h (not_endsAlone_word hletter hname).2⟩

end Replaces

section Rules

variable {letter : Char} {inner w : Text}

theorem Braced.exists_concat (h : Braced inner w) : ∃ front : Text, w = front ++ ['}'] := by
  obtain ⟨-, -⟩ := h
  exact ⟨_, by rw [group, ← List.cons_append, ← List.append_assoc]⟩

variable (hletter : letter.isAlpha = true)

include hletter

theorem fraction_replaces : fraction.Keeps (Replaces letter) := by
  intro t new left h
  obtain ⟨above, below, w, v, hw, hv, rfl, rfl⟩ := fraction_apply_iff.1 h
  obtain ⟨v, rfl⟩ := hv.exists_concat
  refine ⟨"frac".toList ++ w ++ (v ++ ['}']), rfl, ?_⟩
  rw [← List.append_assoc, ← List.cons_append]
  exact replaces_of_last hletter rfl (by decide) _ _

theorem root_replaces : root.Keeps (Replaces letter) := by
  intro t new left h
  obtain ⟨argument, w, hw, rfl, rfl⟩ := root_apply_iff.1 h
  obtain ⟨w, rfl⟩ := hw.exists_concat
  refine ⟨"sqrt".toList ++ (w ++ ['}']), rfl, ?_⟩
  rw [← List.append_assoc, ← List.cons_append]
  exact replaces_of_last hletter rfl (by decide) _ _

/-- An argument without braces keeps its end, in front of a parenthesis. -/
theorem replaces_bareCall {name gap : Text} (hname : ∀ c ∈ name, c.isAlpha = true)
    (blank : gap.isBlank = true) (argument : Text) :
    Replaces letter ('\\' :: (name ++ (gap ++ argument))) (name ++ '(' :: argument ++ [')']) := by
  intro front front' _
  -- the letter does not stand alone in front of the argument, and behind the parenthesis it may
  have hopen : Admits letter (front ++ '\\' :: (name ++ gap)) (front' ++ name ++ ['(']) :=
    ⟨fun _ => allowsName_concat.2 (by decide),
      fun h => absurd h (not_endsAlone_gap hletter hname blank)⟩
  have hargument := replaces_refl argument hopen
  have hleft : front ++ '\\' :: (name ++ gap) ++ argument
      = front ++ '\\' :: (name ++ (gap ++ argument)) := by simp
  have hright : front' ++ name ++ ['('] ++ argument ++ [')']
      = front' ++ (name ++ '(' :: argument ++ [')']) := by simp
  rw [← hleft, ← hright]
  exact ⟨fun _ => allowsName_concat.2 (by decide),
    fun h => endsAlone_concat.2 (.inl ⟨rfl, hargument.alone h⟩)⟩

theorem call_replaces : call.Keeps (Replaces letter) := by
  intro t new left h
  obtain ⟨f, argument, w, rfl, rfl, hw | ⟨gap, blank, -, rfl⟩⟩ := call_apply h
  · obtain ⟨w, rfl⟩ := hw.exists_concat
    refine ⟨f.name ++ (w ++ ['}']), rfl, ?_⟩
    rw [← List.append_assoc, ← List.cons_append]
    exact replaces_of_last hletter rfl (by decide) _ _
  · exact ⟨f.name ++ (gap ++ argument), rfl,
      replaces_bareCall hletter f.isAlpha_of_mem_name blank argument⟩

theorem delimiter_replaces {name : Text} {paren : Char} (hname : ∀ c ∈ name, c.isAlpha = true)
    (hparen : paren.isAlpha = false ∧ paren ≠ '\\') :
    (delimiter name paren).Keeps (Replaces letter) := by
  intro t new left h
  obtain ⟨gap, blank, rfl, rfl⟩ := delimiter_apply h
  refine ⟨name ++ gap ++ [paren], by simp, fun front front' _ => ?_⟩
  have htaken : front ++ '\\' :: (name ++ gap ++ [paren])
      = front ++ '\\' :: (name ++ gap) ++ [paren] := by simp
  rw [htaken]
  refine ⟨fun _ => allowsName_concat.2 hparen, fun halone => ?_⟩
  rcases endsAlone_concat.1 halone with ⟨-, h⟩ | ⟨rfl, -⟩
  · exact absurd h (not_endsAlone_gap hletter hname blank)
  · rw [hparen.1] at hletter
    cases hletter

theorem pi_replaces : pi.Keeps (Replaces letter) := by
  intro t new left h
  obtain ⟨rfl, rfl, -⟩ := pi_apply_iff.1 h
  exact ⟨"pi".toList, rfl, replaces_word hletter (List.all_eq_true.1 rfl) _⟩

theorem command_replaces : command.Keeps (Replaces letter) := by
  intro t new left h
  obtain ⟨rfl, name, hname, rfl⟩ := command_apply h
  exact ⟨name, rfl, replaces_word hletter hname _⟩

theorem replaces_of_mem {rule : Rule} (h : rule ∈ rules) : rule.Keeps (Replaces letter) := by
  simp only [rules, List.mem_cons, List.not_mem_nil, or_false] at h
  rcases h with rfl | rfl | rfl | rfl | rfl | rfl | rfl
  · exact fraction_replaces hletter
  · exact root_replaces hletter
  · exact call_replaces hletter
  · exact delimiter_replaces hletter (List.all_eq_true.1 rfl) (by decide)
  · exact delimiter_replaces hletter (List.all_eq_true.1 rfl) (by decide)
  · exact pi_replaces hletter
  · exact command_replaces hletter

theorem endsAlone_toCanonical {t : Text} (h : t.EndsAlone letter) :
    (toCanonical t).EndsAlone letter := by
  have hreplaces : Replaces letter t (toCanonical t) :=
    related_foldl_rewrite replaces_refl .append .trans (fun _ => replaces_of_mem hletter) t
  exact (hreplaces (⟨id, id⟩ : Admits letter [] [])).alone h

end Rules

end Latex

theorem endsAlone_canonical {letter : Char} (hletter : letter.isAlpha = true) (mode : Mode)
    {t : Text} (h : t.EndsAlone letter) : (mode.canonical t).EndsAlone letter := by
  cases mode with
  | ascii => exact h
  | latex => exact Latex.endsAlone_toCanonical hletter h

section Reading

open Text (AllowsName EndsAlone)

variable {signAllowed : Bool} {letter c : Char} {t u w front : Text} {tok : Token}
  {ts : List Token}

theorem Text.AllowsName.of_append (h : AllowsName (t ++ u)) : AllowsName u := by
  rcases List.eq_nil_or_concat' u with rfl | ⟨u, c, rfl⟩
  · rintro _ ⟨⟩
  · rw [← List.append_assoc, allowsName_concat] at h
    exact allowsName_concat.2 h

/-- A lexeme with a letter in it is a name. -/
theorem Lexeme.isAlpha_of_mem (h : Lexeme tok w) (hc : c ∈ w) (hletter : c.isAlpha = true) :
    ∀ d ∈ w, d.isAlpha = true := by
  cases h.shape with
  | @numeral x d body head _ numeric =>
    obtain ⟨hnumeric, hsign⟩ := letter_classes hletter
    rcases List.mem_cons.1 hc with rfl | hc
    · rcases head with h | h
      · rw [h] at hnumeric
        cases hnumeric
      · rw [h] at hsign
        cases hsign
    · rw [numeric c hc] at hnumeric
      cases hnumeric
  | name _ letters => exact letters
  | symbol _ _ letter =>
    rw [← List.mem_singleton.1 hc, hletter] at letter
    cases letter

theorem Lexeme.eq_ofName (h : Lexeme tok [letter]) (hletter : letter.isAlpha = true) :
    tok = Token.ofName [letter] := by
  have hname : Lexeme (Token.ofName [letter]) [letter] :=
    .ofName (by simp) (by simpa using hletter)
  have nothing : ∀ s, Reads s [] [] := fun s => (reads_blank_iff rfl).2 rfl
  have hread : Reads true [letter] [tok] :=
    (nothing _).cons h ((h.fits_name hletter true []).2 rfl)
  have hread' : Reads true [letter] [Token.ofName [letter]] :=
    (nothing _).cons hname ((hname.fits_name hletter true []).2 rfl)
  exact (List.cons.inj (Except.ok.inj (hread.symm.trans hread'))).1

theorem mem_of_reads_concat (hletter : letter.isAlpha = true) (h : Reads signAllowed t ts) :
    ∀ {front : Text}, t = front ++ [letter] → front.AllowsName → Token.ofName [letter] ∈ ts := by
  induction h using Reads.induction with
  | @nothing signAllowed gap blank =>
    rintro front rfl -
    have hblank : isBlank letter = true := List.all_eq_true.1 blank letter (by simp)
    rw [(blank_classes hblank).2.1] at hletter
    cases hletter
  | @lexeme signAllowed gap w rest tok ts blank lexeme fits further ih =>
    intro front heq hfront
    rcases List.eq_nil_or_concat' rest with rfl | ⟨rest, d, rfl⟩
    · obtain ⟨w, d, rfl⟩ := (List.eq_nil_or_concat' w).resolve_left lexeme.ne_nil
      rw [List.append_nil, ← List.append_assoc] at heq
      obtain ⟨rfl, hd⟩ := List.append_inj' heq rfl
      obtain ⟨rfl, -⟩ := List.cons.inj hd
      have hletters := lexeme.isAlpha_of_mem (by simp) hletter
      -- the letters in front of the last one would be part of its name
      rcases List.eq_nil_or_concat' w with rfl | ⟨w, e, rfl⟩
      · exact List.mem_cons.2 (.inl (lexeme.eq_ofName hletter).symm)
      · rw [← List.append_assoc, allowsName_concat, hletters e (by simp)] at hfront
        cases hfront.1
    · rw [← List.append_assoc, ← List.append_assoc] at heq
      obtain ⟨rfl, hd⟩ := List.append_inj' heq rfl
      exact List.mem_cons_of_mem tok (ih (by rw [hd]) hfront.of_append)

theorem mem_of_reads (hletter : letter.isAlpha = true) (h : Reads signAllowed t ts)
    (ht : t.EndsAlone letter) : Token.ofName [letter] ∈ ts := by
  obtain ⟨front, closers, rfl, hfront, hclosers⟩ := ht
  have hends : EndsLexeme closers := by
    rcases closers with _ | ⟨c, closers⟩
    · exact ⟨rfl, rfl⟩
    · obtain rfl := hclosers c List.mem_cons_self
      exact endsLexeme_closeParen
  rw [List.append_cons, reads_append_iff hends] at h
  obtain ⟨us, vs, hus, -, rfl⟩ := h
  exact List.mem_append_left vs (mem_of_reads_concat hletter hus rfl hfront)

end Reading

/-- A letter that names nothing, behind a text that ends in no letter and in no backslash, leaves the
text without a value. -/
theorem evaluate_append_letter {letter : Char} (hletter : letter.isAlpha = true)
    (hname : Token.ofName [letter] = .unknown [letter]) {t : Text} (ht : t.AllowsName)
    (mode : Mode) : ∃ cause, evaluate mode (t ++ [letter]) = .error cause := by
  rcases he : evaluate mode (t ++ [letter]) with cause | evaluation
  · exact ⟨cause, rfl⟩
  have hvalue : (evaluate mode (t ++ [letter])).map (·.value) = .ok evaluation.value := by
    rw [he]
    rfl
  obtain ⟨ts, program, hts, hprogram, -⟩ := evaluate_eq_ok_iff.1 hvalue
  have halone : (t ++ [letter]).EndsAlone letter := endsAlone_concat.2 (.inr ⟨rfl, ht⟩)
  have hmem : .unknown [letter] ∈ ts :=
    hname ▸ mem_of_reads hletter hts (endsAlone_canonical hletter mode halone)
  exact absurd hmem (Postfix.known_of_ofInfix hprogram [letter])

end TexCalc
