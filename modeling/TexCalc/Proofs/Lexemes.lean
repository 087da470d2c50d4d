import Mathlib.Data.List.Basic
import Mathlib.Data.List.TakeWhile
import TexCalc.Proofs.Reading

/-!
# The way of the lexer through a text

What stands behind a lexeme matters to it by its last character only (`Lexeme.fits_iff`). The lexer
goes from one lexeme to the next, until nothing is left but blanks or what begins there is no token
(`Course`). It does so in every text (`course`), so what is said of a reading is said once for each
way a text can go on.
-/

namespace TexCalc

section Shapes

/-- What a lexeme is made of, and what must stand around it. -/
inductive Shape : Token → Text → Prop
  | numeral {x : Float} {c : Char} {body : Text} (head : isNumeric c = true ∨ isSign c = true)
      (body_ne : isSign c = true → body ≠ []) (numeric : ∀ d ∈ body, isNumeric d = true) :
      Shape (.number x) (c :: body)
  | name {t : Token} {w : Text} (nonempty : w ≠ []) (letters : ∀ c ∈ w, c.isAlpha = true)
      (fits : ∀ s rest, t.Fits s w rest ↔ rest.head?.any Char.isAlpha = false) : Shape t w
  | symbol {t : Token} {c : Char} (blank : isBlank c = false) (numeric : isNumeric c = false)
      (letter : c.isAlpha = false) (operator : isSign c = true → ∃ op, t = .operator op)
      (fits : ∀ s rest, t.Fits s [c] rest
        ↔ (s && isSign c && rest.head?.any isNumeric) = false) : Shape t [c]

theorem Lexeme.shape {t : Token} {w : Text} (h : Lexeme t w) : Shape t w := by
  cases h with
  | @number w h =>
    cases h with
    | unsigned h =>
      obtain ⟨c, body, rfl⟩ := h.exists_cons
      have hnumeric := h.isNumeric
      have hc := hnumeric c List.mem_cons_self
      refine .numeral (.inl hc) (fun hsign => ?_) fun d hd => hnumeric d (List.mem_cons_of_mem c hd)
      rw [(sign_classes hsign).1] at hc
      cases hc
    | signed sign h =>
      refine .numeral (.inr ?_) (fun _ => ?_) h.isNumeric
      · rcases sign with rfl | rfl <;> rfl
      · obtain ⟨d, body, rfl⟩ := h.exists_cons
        exact List.cons_ne_nil d body
  | constant k =>
    exact .name (by cases k <;> decide) k.isAlpha_of_mem_name fun _ _ => .rfl
  | operator op =>
    refine .symbol (by cases op <;> decide) (by cases op <;> decide) (by cases op <;> decide)
      (fun _ => ⟨op, rfl⟩) fun _ _ => .rfl
  | function f =>
    exact .name (by cases f <;> decide) f.isAlpha_of_mem_name fun _ _ => .rfl
  | unknown nonempty letters => exact .name nonempty letters fun _ _ => .rfl
  | openParen =>
    exact .symbol (by decide) (by decide) (by decide) (fun h => by cases h)
      fun s _ => by cases s <;> simp [Token.Fits, isSign]
  | closeParen =>
    exact .symbol (by decide) (by decide) (by decide) (fun h => by cases h)
      fun s _ => by cases s <;> simp [Token.Fits, isSign]

theorem Lexeme.fits_name {t : Token} {c : Char} {w : Text} (h : Lexeme t (c :: w))
    (hc : c.isAlpha = true) (s : Bool) (rest : Text) :
    t.Fits s (c :: w) rest ↔ rest.head?.any Char.isAlpha = false := by
  cases h.shape with
  | numeral head =>
    rcases head with hnumeric | hsign
    · rw [(numeric_classes hnumeric).1] at hc
      cases hc
    · rw [(sign_classes hsign).2] at hc
      cases hc
  | name _ _ fits => exact fits s rest
  | symbol _ _ letter =>
    rw [letter] at hc
    cases hc

theorem Lexeme.fits_symbol {t : Token} {c : Char} (h : Lexeme t [c])
    (hnumeric : isNumeric c = false) (hletter : c.isAlpha = false) (s : Bool) (rest : Text) :
    t.Fits s [c] rest ↔ (s && isSign c && rest.head?.any isNumeric) = false := by
  cases h.shape with
  | numeral head body_ne =>
    rcases head with h | hsign
    · rw [h] at hnumeric
      cases hnumeric
    · exact absurd rfl (body_ne hsign)
  | name _ letters =>
    rw [letters c List.mem_cons_self] at hletter
    cases hletter
  | symbol _ _ _ _ fits => exact fits s rest

theorem Lexeme.ne_nil {t : Token} {w : Text} (h : Lexeme t w) : w ≠ [] := by
  cases h.shape with
  | name nonempty => exact nonempty
  | numeral | symbol => exact List.cons_ne_nil _ _

theorem Lexeme.exists_of_number {x : Float} {w : Text} (h : Lexeme (.number x) w) :
    ∃ c body, w = c :: body ∧ ∀ d ∈ body, isNumeric d = true := by
  cases h with
  | number h =>
    cases h with
    | unsigned h =>
      obtain ⟨c, body, rfl⟩ := h.exists_cons
      exact ⟨c, body, rfl, fun d hd => h.isNumeric d (List.mem_cons_of_mem c hd)⟩
    | signed _ h => exact ⟨_, _, rfl, h.isNumeric⟩

/-- What stands behind a lexeme matters to it only by its last character: no number and no name
goes on there, and no sign that is allowed stands in front of a number. -/
theorem Lexeme.fits_iff {s : Bool} {t : Token} {w rest : Text} (h : Lexeme t w) :
    t.Fits s w rest ↔ t.Fits s w []
      ∧ (rest.head?.any isNumeric = true → w.getLast?.any isNumeric = false)
      ∧ (rest.head?.any Char.isAlpha = true → w.getLast?.any Char.isAlpha = false)
      ∧ (rest.head?.any isNumeric = true → w.getLast?.any isSign = true → s = false) := by
  cases h.shape with
  | @numeral x c body head body_ne numeric =>
    obtain ⟨d, hd, hnumeric⟩ : ∃ d, (c :: body).getLast? = some d ∧ isNumeric d = true := by
      rcases List.eq_nil_or_concat' body with rfl | ⟨body, d, rfl⟩
      · exact ⟨c, rfl, head.resolve_right fun hsign => body_ne hsign rfl⟩
      · exact ⟨d, by rw [← List.cons_append, List.getLast?_concat], numeric d (by simp)⟩
    simp [Token.Fits, hd, hnumeric, numeric_classes hnumeric, and_comm]
  | name nonempty letters fits =>
    obtain ⟨w, d, rfl⟩ := (List.eq_nil_or_concat' w).resolve_left nonempty
    have hletter := letters d (by simp)
    simp [fits, hletter, letter_classes hletter]
  | symbol _ numeric letter _ fits =>
    rw [fits, fits]
    cases s <;> simp [numeric, letter]

theorem Lexeme.head_not_blank {t : Token} {w : Text} (h : Lexeme t w) (rest : Text) :
    (w ++ rest).head?.any isBlank = false := by
  cases h.shape with
  | numeral head => exact isBlank_eq_false (head.imp_right .inr)
  | name nonempty letters =>
    obtain ⟨c, w, rfl⟩ := List.exists_cons_of_ne_nil nonempty
    exact isBlank_eq_false (.inr (.inl (letters c List.mem_cons_self)))
  | symbol blank => exact blank

/-- Two texts that begin with maximal lexemes of one token begin with the same one. -/
theorem Lexeme.eq_of_append {t : Token} {w w' rest rest' : Text} {s s' : Bool} (h : Lexeme t w)
    (h' : Lexeme t w') (fits : t.Fits s w rest) (fits' : t.Fits s' w' rest')
    (heq : w ++ rest = w' ++ rest') : w = w' := by
  cases t with
  | number x =>
    obtain ⟨c, body, rfl, hbody⟩ := h.exists_of_number
    obtain ⟨c', body', rfl, hbody'⟩ := h'.exists_of_number
    obtain ⟨hc, hrest⟩ := List.cons.inj heq
    change body ++ rest = body' ++ rest' at hrest
    rw [hc, ← takeWhile_run hbody fits.2, ← takeWhile_run hbody' fits'.2, hrest]
  | constant | operator | function | unknown | openParen | closeParen =>
    cases h
    cases h'
    rfl

/-- A run of letters is the lexeme of the token that it is classified as. -/
theorem Lexeme.ofName {name : Text} (nonempty : name ≠ [])
    (letters : ∀ c ∈ name, c.isAlpha = true) : Lexeme (Token.ofName name) name := by
  unfold Token.ofName
  split
  · next f hf =>
    obtain rfl : f.name = name := by simpa using List.find?_some hf
    exact .function f
  next hf =>
    split
    · next k hk =>
      obtain rfl : k.name = name := by simpa using List.find?_some hk
      exact .constant k
    next hk =>
      refine .unknown nonempty letters (fun f h => ?_) fun k h => ?_
      · rw [← h, Func.ofName?_name] at hf
        cases hf
      · rw [← h, Constant.ofName?_name] at hk
        cases hk

theorem Lexeme.ofChar? {c : Char} {t : Token} (h : Token.ofChar? c = some t) : Lexeme t [c] := by
  unfold Token.ofChar? at h
  split at h
  · next hc =>
    cases h
    exact hc ▸ .openParen
  split at h
  · next hc =>
    cases h
    exact hc ▸ .closeParen
  · obtain ⟨op, hop, rfl⟩ := Option.map_eq_some_iff.1 h
    obtain rfl : op.symbol = c := by simpa using List.find?_some hop
    exact .operator op

end Shapes

section Courses

variable {signAllowed : Bool} {position : Nat} {t : Text}

/-- A character that stands in no token and is no blank. -/
structure IsForeign (c : Char) : Prop where
  blank : isBlank c = false
  digit : c.isDigit = false
  letter : c.isAlpha = false
  symbol : c ∉ ['.', '(', ')', '+', '-', '*', '/', '^']

/-- `Unreadable signAllowed t cause`: no lexeme and no blank begins the text, and this is the cause
wherever the text stands. -/
inductive Unreadable (signAllowed : Bool) : Text → (Nat → Failure) → Prop
  | foreign {c : Char} {rest : Text} (foreign : IsForeign c) :
      Unreadable signAllowed (c :: rest) (.unexpectedChar c)
  | malformed {c : Char} {run rest : Text}
      (begins : beginsNumber signAllowed c (run ++ rest) = true)
      (numeric : ∀ d ∈ run, isNumeric d = true) (ends : rest.head?.any isNumeric = false)
      (malformed : ¬IsNumeral (c :: run)) :
      Unreadable signAllowed (c :: (run ++ rest)) (.malformedNumber (c :: run))

/-- The way of the lexer through a text: from one lexeme to the next, until nothing is left but
blanks or what begins there is refused. -/
inductive Course : Bool → Text → Prop
  | nothing {signAllowed : Bool} {gap : Text} (blank : gap.isBlank = true) : Course signAllowed gap
  | lexeme {signAllowed : Bool} {gap w rest : Text} {t : Token} (blank : gap.isBlank = true)
      (lexeme : Lexeme t w) (fits : t.Fits signAllowed w rest)
      (further : Course t.kind.allowsSign rest) : Course signAllowed (gap ++ (w ++ rest))
  | unreadable {signAllowed : Bool} {gap rest : Text} {cause : Nat → Failure}
      (blank : gap.isBlank = true) (unreadable : Unreadable signAllowed rest cause) :
      Course signAllowed (gap ++ rest)

theorem ofChar?_eq_none_iff {c : Char} :
    Token.ofChar? c = none ↔ c ∉ ['(', ')', '+', '-', '*', '/', '^'] := by
  have hsymbol : Operator.ofSymbol? c = none ↔ c ∉ ['+', '-', '*', '/', '^'] := by
    rw [Operator.ofSymbol?, List.find?_eq_none]
    simp [Operator.all, Operator.symbol, @eq_comm _ c]
  unfold Token.ofChar?
  split
  · next h => simp [h]
  split
  · next h => simp [h]
  next hopen hclose =>
    rw [Option.map_eq_none_iff, hsymbol]
    simp [hopen, hclose]

theorem isForeign_iff {c : Char} : IsForeign c ↔ isBlank c = false ∧ isNumeric c = false
    ∧ c.isAlpha = false ∧ Token.ofChar? c = none := by
  rw [ofChar?_eq_none_iff]
  constructor
  · rintro ⟨blank, digit, letter, symbol⟩
    rw [List.mem_cons, not_or] at symbol
    exact ⟨blank, by simp [isNumeric, digit, symbol.1], letter, symbol.2⟩
  · rintro ⟨blank, numeric, letter, symbol⟩
    simp only [isNumeric, Bool.or_eq_false_iff, beq_eq_false_iff_ne] at numeric
    exact ⟨blank, numeric.1, letter, by rw [List.mem_cons, not_or]; exact ⟨numeric.2, symbol⟩⟩

theorem scan_unreadable {cause : Nat → Failure} (h : Unreadable signAllowed t cause) :
    Token.scan signAllowed position t = .error (cause position) := by
  cases h with
  | @foreign c rest h =>
    obtain ⟨hblank, hnumeric, hletter, hchar⟩ := isForeign_iff.1 h
    have hsign : isSign c = false := by
      refine Bool.eq_false_iff.2 fun hsign => ?_
      simp only [isSign, Bool.or_eq_true, beq_iff_eq] at hsign
      rcases hsign with rfl | rfl <;> cases hchar
    rw [Token.scan, if_neg (by simp [hblank]), if_neg (by simp [beginsNumber, hnumeric, hsign]),
      if_neg (by simp [hletter])]
    simp only [hchar]
  | @malformed c run rest begins numeric ends malformed =>
    have hread : Numeral.read? (c :: run) = none :=
      Option.eq_none_iff_forall_ne_some.2 fun x hx => malformed (Numeral.isNumeral_of_read? hx)
    have hblank : isBlank c = false := by
      simp only [beginsNumber, Bool.or_eq_true, Bool.and_eq_true] at begins
      exact isBlank_eq_false (begins.imp id fun h => .inr h.1.2)
    rw [Token.scan, if_neg (by simp [hblank]), if_pos begins]
    simp only [takeWhile_run numeric ends, hread]

/-- What begins with no blank begins with a lexeme that fits, or is refused. -/
theorem lexeme_or_unreadable (signAllowed : Bool) {c : Char} (hblank : isBlank c = false)
    (rest : Text) : (∃ tok w further, c :: rest = w ++ further ∧ Lexeme tok w
        ∧ tok.Fits signAllowed w further)
      ∨ ∃ cause, Unreadable signAllowed (c :: rest) cause := by
  have run_of : ∀ p : Char → Bool, (∀ d ∈ rest.takeWhile p, p d = true)
      ∧ (rest.dropWhile p).head?.any p = false
      ∧ c :: rest = c :: rest.takeWhile p ++ rest.dropWhile p := fun p =>
    ⟨fun _ => List.mem_takeWhile_imp, by simpa using head_dropWhile p rest, by simp⟩
  by_cases hnumber : beginsNumber signAllowed c rest = true
  · obtain ⟨numeric, ends, hrest⟩ := run_of isNumeric
    by_cases hnumeral : IsNumeral (c :: rest.takeWhile isNumeric)
    · refine .inl ⟨_, _, _, hrest, .number hnumeral, ?_, ends⟩
      simp only [beginsNumber, Bool.or_eq_true, Bool.and_eq_true] at hnumber
      exact hnumber.elim .inr fun h => .inl h.1.1
    · have unreadable : Unreadable signAllowed
          (c :: (rest.takeWhile isNumeric ++ rest.dropWhile isNumeric)) _ :=
        .malformed (by simpa using hnumber) numeric ends hnumeral
      rw [List.takeWhile_append_dropWhile] at unreadable
      exact .inr ⟨_, unreadable⟩
  by_cases hletter : c.isAlpha = true
  · obtain ⟨letters, ends, hrest⟩ := run_of Char.isAlpha
    have lexeme := Lexeme.ofName (List.cons_ne_nil c _)
      (List.forall_mem_cons.2 ⟨hletter, letters⟩)
    exact .inl ⟨_, _, _, hrest, lexeme, (lexeme.fits_name hletter _ _).2 ends⟩
  rw [Bool.not_eq_true, beginsNumber, Bool.or_eq_false_iff] at hnumber
  rw [Bool.not_eq_true] at hletter
  rcases hchar : Token.ofChar? c with _ | tok
  · exact .inr ⟨_, .foreign (isForeign_iff.2 ⟨hblank, hnumber.1, hletter, hchar⟩)⟩
  · have lexeme := Lexeme.ofChar? hchar
    exact .inl ⟨_, [c], rest, rfl, lexeme, (lexeme.fits_symbol hnumber.1 hletter _ _).2 hnumber.2⟩

/-- There is such a way through every text. -/
theorem course (signAllowed : Bool) (t : Text) : Course signAllowed t := by
  induction hlength : t.length using Nat.strongRecOn generalizing signAllowed t with
  | ind n ih =>
    have blank : Text.isBlank (t.takeWhile isBlank) = true :=
      List.all_eq_true.2 fun _ hc => List.mem_takeWhile_imp hc
    have hhead := head_dropWhile isBlank t
    rw [← List.takeWhile_append_dropWhile (p := isBlank) (l := t)] at hlength ⊢
    generalize t.takeWhile isBlank = gap at blank hlength
    generalize t.dropWhile isBlank = rest at hhead hlength
    rcases rest with _ | ⟨c, rest⟩
    · rw [List.append_nil]
      exact .nothing blank
    have hblank : isBlank c = false := by simpa using hhead
    obtain ⟨tok, w, further, hrest, lexeme, fits⟩ | ⟨cause, unreadable⟩ :=
      lexeme_or_unreadable signAllowed hblank rest
    · have hw := List.length_pos_iff.2 lexeme.ne_nil
      rw [hrest] at hlength ⊢
      rw [List.length_append, List.length_append] at hlength
      exact .lexeme blank lexeme fits (ih _ (by omega) _ _ rfl)
    · exact .unreadable blank unreadable

end Courses

end TexCalc
