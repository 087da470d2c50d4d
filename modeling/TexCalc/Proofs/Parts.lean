import TexCalc.Proofs.Lexemes

/-!
# Reading a text in parts

The lexer remembers one bit, so a text may be cut wherever no number and no name goes on: its tokens
are those of the part in front of the cut, and behind them those of the other part, read with what
the lexer remembers there (`scan_append`). Where a text stands decides nothing but the positions in
failures (`scan_shift`), which is why `Reads` has none. A fact about what is read needs a case for
blanks and one for a lexeme in front of what is read behind it (`Reads.induction`).
-/

namespace TexCalc

/-- A text in parentheses. -/
def Text.parenthesised (t : Text) : Text :=
  '(' :: (t ++ [')'])

/-- Neither a number nor a name goes on with this text. -/
def EndsLexeme (rest : Text) : Prop :=
  rest.head?.any isNumeric = false ∧ rest.head?.any Char.isAlpha = false

section Runs

variable {p : Char → Bool} {rest : Text}

theorem takeWhile_append_stop (hrest : rest.head?.any p = false) (t : Text) :
    (t ++ rest).takeWhile p = t.takeWhile p := by
  induction t with
  | nil => simpa using takeWhile_run (w := []) (by simp) hrest
  | cons c t ih => simp only [List.cons_append, List.takeWhile_cons, ih]

theorem dropWhile_append_stop (hrest : rest.head?.any p = false) (t : Text) :
    (t ++ rest).dropWhile p = t.dropWhile p ++ rest := by
  induction t with
  | nil => simpa using dropWhile_run (w := []) (by simp) hrest
  | cons c t ih =>
    simp only [List.cons_append, List.dropWhile_cons, ih]
    split <;> rfl

theorem head_append_stop (hrest : rest.head?.any p = false) (t : Text) :
    (t ++ rest).head?.any p = t.head?.any p := by
  cases t with
  | nil => simpa using hrest
  | cons c t => rfl

end Runs

theorem exists_of_map_cons {scanned : Except Failure (List Token)} {t : Token} {ts : List Token}
    (h : scanned.map (t :: ·) = .ok ts) : ∃ us, scanned = .ok us ∧ ts = t :: us := by
  cases scanned with
  | error cause => cases h
  | ok us =>
    cases h
    exact ⟨us, rfl, rfl⟩

theorem Unreadable.append_stop {signAllowed : Bool} {t rest : Text} {cause : Nat → Failure}
    (h : Unreadable signAllowed t cause) (hrest : EndsLexeme rest) :
    Unreadable signAllowed (t ++ rest) cause := by
  cases h with
  | foreign h => exact .foreign h
  | malformed begins numeric ends malformed =>
    rw [List.cons_append, List.append_assoc]
    refine .malformed ?_ numeric ?_ malformed
    · rw [← List.append_assoc, beginsNumber, head_append_stop hrest.1]
      exact begins
    · rw [head_append_stop hrest.1]
      exact ends

namespace Token

/-- Whether a sign behind the tokens belongs to a number; `signAllowed` tells the same of the place
in front of them. -/
def signBehind (signAllowed : Bool) (ts : List Token) : Bool :=
  ts.foldl (fun _ t => t.kind.allowsSign) signAllowed

/-- An operand is next behind the tokens: there are none, or the last one is an operator or an open
parenthesis. -/
def OperandNext (ts : List Token) : Prop :=
  ∀ t ∈ ts.getLast?, (∃ op, t = .operator op) ∨ t = .openParen

theorem Kind.allowsSign_iff {t : Token} :
    t.kind.allowsSign = true ↔ (∃ op, t = .operator op) ∨ t = .openParen := by
  cases t <;> simp [kind, Kind.allowsSign]

theorem signBehind_append_singleton (signAllowed : Bool) (ts : List Token) (t : Token) :
    signBehind signAllowed (ts ++ [t]) = t.kind.allowsSign :=
  List.foldl_concat ..

theorem signBehind_iff (ts : List Token) : signBehind true ts = true ↔ OperandNext ts := by
  rcases List.eq_nil_or_concat' ts with rfl | ⟨front, t, rfl⟩
  · simp [signBehind, OperandNext]
  · rw [signBehind_append_singleton, Kind.allowsSign_iff]
    simp [OperandNext]

theorem map_cons_bind {scanned : Except Failure (List Token)} {t : Token}
    {next : List Token → Except Failure (List Token)} :
    (scanned.map (t :: ·)).bind (fun ts => (next ts).map (ts ++ ·))
      = (scanned.bind fun ts => (next (t :: ts)).map (ts ++ ·)).map (t :: ·) := by
  rcases scanned with cause | ts
  · rfl
  · simp only [Except.map, Except.bind]
    rcases next (t :: ts) with cause | us <;> rfl

theorem Fits.append_stop {signAllowed : Bool} {t : Token} {w more rest : Text}
    (fits : t.Fits signAllowed w more) (hrest : EndsLexeme rest) :
    t.Fits signAllowed w (more ++ rest) := by
  cases t with
  | number x => exact ⟨fits.1, by rw [head_append_stop hrest.1]; exact fits.2⟩
  | constant | function | unknown => exact (head_append_stop hrest.2 more).trans fits
  | operator op =>
    rw [Fits, head_append_stop hrest.1]
    exact fits
  | openParen | closeParen => trivial

/-- Where no lexeme goes on, a text is read up to there and then from there. -/
theorem scan_append {rest : Text} (hrest : EndsLexeme rest) (signAllowed : Bool) (position : Nat)
    (t : Text) : scan signAllowed position (t ++ rest)
      = (scan signAllowed position t).bind fun ts =>
        (scan (signBehind signAllowed ts) (position + t.length) rest).map (ts ++ ·) := by
  induction course signAllowed t generalizing position with
  | @nothing signAllowed gap blank =>
    rw [scan_gap _ blank, scan_blank blank]
    simp only [Except.bind, signBehind, List.foldl_nil, List.nil_append]
    cases scan signAllowed (position + gap.length) rest <;> rfl
  | @lexeme signAllowed gap w further tok blank lexeme fits _ ih =>
    have hlength : position + (gap ++ (w ++ further)).length
        = position + gap.length + w.length + further.length := by
      simp only [List.length_append]
      omega
    rw [List.append_assoc, List.append_assoc, scan_gap _ blank,
      scan_lexeme lexeme (fits.append_stop hrest), ih, scan_gap _ blank, scan_lexeme lexeme fits,
      map_cons_bind, hlength]
    rfl
  | unreadable blank unreadable =>
    rw [List.append_assoc, scan_gap _ blank, scan_unreadable (unreadable.append_stop hrest),
      scan_gap _ blank, scan_unreadable unreadable]
    rfl

/-- The tokens of a text are the same wherever it begins. -/
theorem scan_shift {signAllowed : Bool} {position : Nat} {t : Text} {ts : List Token}
    (h : scan signAllowed position t = .ok ts) (start : Nat) :
    scan signAllowed start t = .ok ts := by
  induction course signAllowed t generalizing position start ts with
  | nothing blank =>
    rw [scan_blank blank] at h ⊢
    exact h
  | lexeme blank lexeme fits _ ih =>
    rw [scan_gap _ blank, scan_lexeme lexeme fits] at h ⊢
    obtain ⟨us, hus, rfl⟩ := exists_of_map_cons h
    rw [ih hus]
    rfl
  | unreadable blank unreadable =>
    rw [scan_gap _ blank, scan_unreadable unreadable] at h
    cases h

end Token

/-- `Reads signAllowed t ts`: the lexer reads the tokens `ts` from the text `t`, wherever that
stands. -/
def Reads (signAllowed : Bool) (t : Text) (ts : List Token) : Prop :=
  Token.scan signAllowed 0 t = .ok ts

theorem reads_iff_scan {signAllowed : Bool} {t : Text} {ts : List Token} (position : Nat) :
    Reads signAllowed t ts ↔ Token.scan signAllowed position t = .ok ts :=
  ⟨fun h => Token.scan_shift h position, fun h => Token.scan_shift h 0⟩

section Reads

open Token (signBehind)

variable {signAllowed : Bool} {t rest gap : Text} {ts us : List Token}

/-- A text that may be cut is read as its two parts are. -/
theorem reads_append_iff (hrest : EndsLexeme rest) : Reads signAllowed (t ++ rest) ts
    ↔ ∃ front back, Reads signAllowed t front ∧ Reads (signBehind signAllowed front) rest back
      ∧ ts = front ++ back := by
  rw [Reads, Token.scan_append hrest]
  constructor
  · intro h
    rcases hfront : Token.scan signAllowed 0 t with cause | front <;> rw [hfront] at h
    · cases h
    simp only [Except.bind] at h
    rcases hback : Token.scan (signBehind signAllowed front) (0 + t.length) rest
      with cause | back <;> rw [hback] at h <;> cases h
    exact ⟨front, back, hfront, (reads_iff_scan _).2 hback, rfl⟩
  · rintro ⟨front, back, hfront, hback, rfl⟩
    rw [hfront]
    simp only [Except.bind, (reads_iff_scan _).1 hback, Except.map]

/-- A lexeme is read in front of what stands behind it. -/
theorem reads_lexeme_iff {tok : Token} {w : Text} (h : Lexeme tok w)
    (fits : tok.Fits signAllowed w rest) : Reads signAllowed (w ++ rest) ts
      ↔ ∃ back, Reads tok.kind.allowsSign rest back ∧ ts = tok :: back := by
  rw [Reads, Token.scan_lexeme h fits]
  constructor
  · intro h
    obtain ⟨back, hback, rfl⟩ := exists_of_map_cons h
    exact ⟨back, (reads_iff_scan _).2 hback, rfl⟩
  · rintro ⟨back, hback, rfl⟩
    rw [(reads_iff_scan _).1 hback]
    rfl

theorem Reads.cons {tok : Token} {w : Text} (h : Lexeme tok w) (fits : tok.Fits signAllowed w rest)
    (hrest : Reads tok.kind.allowsSign rest ts) : Reads signAllowed (w ++ rest) (tok :: ts) :=
  (reads_lexeme_iff h fits).2 ⟨ts, hrest, rfl⟩

theorem endsLexeme_blank (blank : gap.isBlank = true) : EndsLexeme gap := by
  cases gap with
  | nil => exact ⟨rfl, rfl⟩
  | cons c gap =>
    simp only [Text.isBlank, List.all_cons, Bool.and_eq_true] at blank
    exact ⟨(blank_classes blank.1).1, (blank_classes blank.1).2.1⟩

theorem reads_blank_iff (blank : gap.isBlank = true) : Reads signAllowed gap ts ↔ ts = [] := by
  rw [Reads, Token.scan_blank blank, Except.ok.injEq, eq_comm]

theorem reads_behind_gap_iff (blank : gap.isBlank = true) :
    Reads signAllowed (gap ++ t) ts ↔ Reads signAllowed t ts := by
  rw [Reads, Token.scan_gap t blank, ← reads_iff_scan]

/-- Blanks around a text are nothing to the lexer. -/
theorem reads_gap_iff {gap' : Text} (blank : gap.isBlank = true) (blank' : gap'.isBlank = true) :
    Reads signAllowed (gap ++ t ++ gap') ts ↔ Reads signAllowed t ts := by
  rw [reads_append_iff (endsLexeme_blank blank')]
  simp [reads_blank_iff blank', reads_behind_gap_iff blank]

/-- What is read is nothing but blanks, or a lexeme that fits and what is read behind it. -/
@[elab_as_elim]
theorem Reads.induction {motive : ∀ {s : Bool} {t : Text} {ts : List Token}, Reads s t ts → Prop}
    (nothing : ∀ {s : Bool} {gap : Text} (blank : gap.isBlank = true),
      motive (show Reads s gap [] from (reads_blank_iff blank).2 rfl))
    (lexeme : ∀ {s : Bool} {gap w rest : Text} {t : Token} {ts : List Token}
      (blank : gap.isBlank = true) (lexeme : Lexeme t w) (fits : t.Fits s w rest)
      (further : Reads t.kind.allowsSign rest ts), motive further →
      motive ((reads_behind_gap_iff blank).2 (further.cons lexeme fits)))
    {s : Bool} {t : Text} {ts : List Token} (h : Reads s t ts) : motive h := by
  induction course s t generalizing ts with
  | nothing blank =>
    obtain rfl := (reads_blank_iff blank).1 h
    exact nothing blank
  | lexeme blank hlexeme fits _ ih =>
    obtain ⟨us, hus, rfl⟩ := (reads_lexeme_iff hlexeme fits).1 ((reads_behind_gap_iff blank).1 h)
    exact lexeme blank hlexeme fits hus (ih hus)
  | unreadable blank unreadable =>
    rw [reads_behind_gap_iff blank, Reads, scan_unreadable unreadable] at h
    cases h

theorem reads_openParen_iff : Reads signAllowed ('(' :: rest) ts
    ↔ ∃ back, Reads true rest back ∧ ts = .openParen :: back :=
  reads_lexeme_iff .openParen trivial

theorem reads_closeParen_iff : Reads signAllowed (')' :: rest) ts
    ↔ ∃ back, Reads false rest back ∧ ts = .closeParen :: back :=
  reads_lexeme_iff .closeParen trivial

/-- Where no sign is allowed the symbol of an operator is that operator. -/
theorem reads_operator_iff (op : Operator) : Reads false (op.symbol :: rest) ts
    ↔ ∃ back, Reads true rest back ∧ ts = .operator op :: back :=
  reads_lexeme_iff (.operator op) rfl

theorem endsLexeme_openParen : EndsLexeme ('(' :: rest) :=
  ⟨rfl, rfl⟩

theorem endsLexeme_closeParen : EndsLexeme (')' :: rest) :=
  ⟨rfl, rfl⟩

/-- A text in parentheses is read as it is read alone, in parentheses. -/
theorem reads_parenthesised_iff : Reads signAllowed (t.parenthesised ++ rest) ts
    ↔ ∃ inner back, Reads true t inner ∧ Reads false rest back
      ∧ ts = .openParen :: (inner ++ [.closeParen]) ++ back := by
  have hassoc : t.parenthesised ++ rest = '(' :: (t ++ ')' :: rest) := by simp [Text.parenthesised]
  rw [hassoc, reads_openParen_iff]
  simp only [reads_append_iff endsLexeme_closeParen, reads_closeParen_iff]
  constructor
  · rintro ⟨_, ⟨inner, _, hinner, ⟨back, hback, rfl⟩, rfl⟩, rfl⟩
    exact ⟨inner, back, hinner, hback, by simp⟩
  · rintro ⟨inner, back, hinner, hback, rfl⟩
    exact ⟨_, ⟨inner, _, hinner, ⟨back, hback, rfl⟩, rfl⟩, by simp⟩

/-- An operator between two texts in parentheses is read as the texts are read alone. -/
theorem reads_operation_iff (op : Operator) {u : Text} :
    Reads signAllowed (t.parenthesised ++ op.symbol :: u.parenthesised ++ rest) ts
      ↔ ∃ left right back, Reads true t left ∧ Reads true u right ∧ Reads false rest back
        ∧ ts = .openParen :: (left ++ [.closeParen])
          ++ .operator op :: .openParen :: (right ++ [.closeParen]) ++ back := by
  rw [List.append_assoc, List.cons_append]
  simp only [reads_parenthesised_iff, reads_operator_iff]
  constructor
  · rintro ⟨left, _, hleft, ⟨_, ⟨right, back, hright, hback, rfl⟩, rfl⟩, rfl⟩
    exact ⟨left, right, back, hleft, hright, hback, by simp⟩
  · rintro ⟨left, right, back, hleft, hright, hback, rfl⟩
    exact ⟨left, _, hleft, ⟨_, ⟨right, back, hright, hback, rfl⟩, rfl⟩, by simp⟩

end Reads

end TexCalc
