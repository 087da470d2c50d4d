import TexCalc.Proofs.Parts

/-!
# Where the lexer fails

The lexer fails where it stands: the text in front of that place is read, whatever stands behind it,
and what begins there can be no token and no blank (`scan_eq_error_iff`). So a failure tells the
first character that stands in no token, or the first run of digits and points that is no number,
with the sign that belongs to it (`ofText_eq_error_iff`).
-/

namespace TexCalc

open Token (OperandNext signBehind)

section Severed

variable {signAllowed : Bool} {position : Nat} {t : Token} {ts : List Token}
  {gap w front more rest : Text}

/-- Nothing at the end of `front` goes on in `rest`: no number, no name, and no sign that would
belong to a number there. -/
structure Severed (signAllowed : Bool) (front rest : Text) : Prop where
  number : rest.head?.any isNumeric = true → front.getLast?.any isNumeric = false
  name : rest.head?.any Char.isAlpha = true → front.getLast?.any Char.isAlpha = false
  sign : rest.head?.any isNumeric = true → ∀ u c us, front = u ++ [c] → isSign c = true →
    Reads signAllowed u us → signBehind signAllowed us = false

theorem EndsLexeme.severed (h : EndsLexeme rest) : Severed signAllowed front rest := by
  refine ⟨fun hrest => ?_, fun hrest => ?_, fun hrest => ?_⟩ <;> simp [h.1, h.2] at hrest

theorem severed_blank (blank : gap.isBlank = true) : Severed signAllowed gap rest := by
  rcases List.eq_nil_or_concat' gap with rfl | ⟨u, c, rfl⟩
  · exact ⟨fun _ => rfl, fun _ => rfl, fun _ u c us heq => by simp at heq⟩
  have hblank : isBlank c = true := List.all_eq_true.1 blank c (by simp)
  obtain ⟨hnumeric, hletter, hsign⟩ := blank_classes hblank
  refine ⟨fun _ => by simpa using hnumeric, fun _ => by simpa using hletter, ?_⟩
  intro _ u' c' us heq hsign'
  obtain ⟨-, hc⟩ := List.append_inj' heq rfl
  cases hc
  rw [hsign] at hsign'
  cases hsign'

theorem Lexeme.eq_of_sign {c : Char} (h : Lexeme t w) (hlast : w.getLast? = some c)
    (hsign : isSign c = true) : w = [c] := by
  cases h.shape with
  | @numeral x d body _ _ numeric =>
    rcases List.eq_nil_or_concat' body with rfl | ⟨body, e, rfl⟩
    · simpa using hlast
    · rw [← List.cons_append, List.getLast?_concat, Option.some.injEq] at hlast
      have hnumeric := numeric e (by simp)
      rw [hlast, (sign_classes hsign).1] at hnumeric
      cases hnumeric
  | name _ letters =>
    have hletter := letters c (List.mem_of_getLast? hlast)
    rw [(sign_classes hsign).2] at hletter
    cases hletter
  | symbol => simpa using hlast

theorem Lexeme.fits_of_append (h : Lexeme t w) (fits : t.Fits signAllowed w (more ++ rest)) :
    t.Fits signAllowed w more := by
  rw [h.fits_iff] at fits
  cases more with
  | nil => exact fits.1
  | cons c more => exact h.fits_iff.2 fits

/-- A text is severed behind a lexeme just if the lexeme fits there and the text behind it is. -/
theorem severed_lexeme_iff (blank : gap.isBlank = true) (lexeme : Lexeme t w)
    (fits : t.Fits signAllowed w more) : Severed signAllowed (gap ++ (w ++ more)) rest
      ↔ t.Fits signAllowed w (more ++ rest) ∧ Severed t.kind.allowsSign more rest := by
  rcases List.eq_nil_or_concat' more with rfl | ⟨more, d, rfl⟩
  · have hlast : (gap ++ w).getLast? = w.getLast? := by
      rw [List.getLast?_append, List.getLast?_eq_some_getLast lexeme.ne_nil, Option.some_or]
    rw [List.append_nil, List.nil_append, lexeme.fits_iff,
      and_iff_left (severed_blank (rfl : Text.isBlank [] = true))]
    constructor
    · rintro ⟨number, name, sign⟩
      rw [hlast] at number name
      refine ⟨fits, number, name, fun hrest hsign => ?_⟩
      obtain ⟨c, hc, hsign⟩ := (Option.any_eq_true _ _).1 hsign
      obtain rfl := lexeme.eq_of_sign hc hsign
      exact sign hrest gap c [] rfl hsign ((reads_blank_iff blank).2 rfl)
    · rintro ⟨-, number, name, sign⟩
      rw [← hlast] at number name
      refine ⟨number, name, fun hrest u c us heq hsign hus => ?_⟩
      have hc : w.getLast? = some c := by rw [← hlast, heq, List.getLast?_concat]
      obtain rfl := lexeme.eq_of_sign hc hsign
      obtain ⟨rfl, -⟩ := List.append_inj' heq rfl
      rw [(reads_blank_iff blank).1 hus]
      exact sign hrest hsign
  · have hlast : (gap ++ (w ++ (more ++ [d]))).getLast? = (more ++ [d]).getLast? := by
      rw [← List.append_assoc, ← List.append_assoc, List.getLast?_concat, List.getLast?_concat]
    have hfits : t.Fits signAllowed w (more ++ [d] ++ rest) := by
      have hhead : (more ++ [d] ++ rest).head? = (more ++ [d]).head? := by cases more <;> rfl
      rw [lexeme.fits_iff, hhead]
      exact lexeme.fits_iff.1 fits
    rw [and_iff_right hfits]
    constructor
    · rintro ⟨number, name, sign⟩
      rw [hlast] at number name
      refine ⟨number, name, fun hrest u c us heq hsign hus => ?_⟩
      have hu : t.Fits signAllowed w u := lexeme.fits_of_append (heq ▸ fits)
      refine sign hrest (gap ++ (w ++ u)) c (t :: us) (by simp [heq]) hsign ?_
      exact (reads_behind_gap_iff blank).2 (hus.cons lexeme hu)
    · rintro ⟨number, name, sign⟩
      rw [← hlast] at number name
      refine ⟨number, name, fun hrest u c us heq hsign hus => ?_⟩
      rw [← List.append_assoc, ← List.append_assoc] at heq
      obtain ⟨rfl, hc⟩ := List.append_inj' heq rfl
      rw [List.append_assoc, reads_behind_gap_iff blank,
        reads_lexeme_iff lexeme (lexeme.fits_of_append fits)] at hus
      obtain ⟨back, hback, rfl⟩ := hus
      exact sign hrest more c back (by rw [hc]) hsign hback

theorem scan_severed (h : Reads signAllowed front ts) (severed : Severed signAllowed front rest) :
    Token.scan signAllowed position (front ++ rest)
      = (Token.scan (signBehind signAllowed ts) (position + front.length) rest).map (ts ++ ·) := by
  induction h using Reads.induction generalizing position with
  | @nothing signAllowed gap blank =>
    rw [Token.scan_gap _ blank, signBehind, List.foldl_nil]
    cases Token.scan signAllowed (position + gap.length) rest <;> rfl
  | @lexeme signAllowed gap w front t us blank lexeme fits further ih =>
    obtain ⟨hfits, severed⟩ := (severed_lexeme_iff blank lexeme fits).1 severed
    rw [List.append_assoc, List.append_assoc, Token.scan_gap _ blank,
      Token.scan_lexeme lexeme hfits, ih severed]
    have hposition : position + (gap ++ (w ++ front)).length
        = position + gap.length + w.length + front.length := by
      simp only [List.length_append]
      omega
    have hsign : signBehind signAllowed (t :: us) = signBehind t.kind.allowsSign us := rfl
    rw [hposition, hsign]
    cases Token.scan (signBehind t.kind.allowsSign us)
      (position + gap.length + w.length + front.length) rest <;> rfl

/-- The lexer fails behind a text that is read, at what can be read nowhere. -/
theorem scan_eq_error_iff {failure : Failure} (s : Text) :
    Token.scan signAllowed position s = .error failure ↔ ∃ front rest ts cause, s = front ++ rest
      ∧ Reads signAllowed front ts ∧ Severed signAllowed front rest
      ∧ Unreadable (signBehind signAllowed ts) rest cause
      ∧ failure = cause (position + front.length) := by
  constructor
  · intro h
    induction course signAllowed s generalizing position with
    | nothing blank =>
      rw [(reads_iff_scan position).1 ((reads_blank_iff blank).2 rfl)] at h
      cases h
    | @lexeme signAllowed gap w further t blank lexeme fits _ ih =>
      rw [Token.scan_gap _ blank, Token.scan_lexeme lexeme fits] at h
      rcases hfurther : Token.scan t.kind.allowsSign (position + gap.length + w.length) further
        with cause | us <;> rw [hfurther] at h <;> cases h
      obtain ⟨front, rest, ts, cause, rfl, hts, severed, unreadable, hcause⟩ := ih hfurther
      have hfront := lexeme.fits_of_append fits
      refine ⟨gap ++ (w ++ front), rest, t :: ts, cause, by simp, ?_,
        (severed_lexeme_iff blank lexeme hfront).2 ⟨fits, severed⟩, unreadable, ?_⟩
      · exact (reads_behind_gap_iff blank).2 (hts.cons lexeme hfront)
      · rw [hcause]
        congr 1
        simp only [List.length_append]
        omega
    | @unreadable signAllowed gap rest cause blank unreadable =>
      rw [Token.scan_gap _ blank, scan_unreadable unreadable] at h
      cases h
      exact ⟨gap, rest, [], cause, rfl, (reads_blank_iff blank).2 rfl, severed_blank blank,
        unreadable, rfl⟩
  · rintro ⟨front, rest, ts, cause, rfl, hts, severed, unreadable, rfl⟩
    rw [scan_severed hts severed, scan_unreadable unreadable]
    rfl

theorem scan_error (signAllowed : Bool) (position : Nat) (t : Text) {failure : Failure}
    (h : Token.scan signAllowed position t = .error failure) :
    (∃ c start, failure = .unexpectedChar c start)
      ∨ ∃ lexeme start, failure = .malformedNumber lexeme start := by
  obtain ⟨front, rest, ts, cause, -, -, -, unreadable, rfl⟩ := (scan_eq_error_iff t).1 h
  cases unreadable with
  | foreign => exact .inl ⟨_, _, rfl⟩
  | malformed => exact .inr ⟨_, _, rfl⟩

end Severed

section Runs

variable {c : Char} {front lead run rest : Text} {ts : List Token}

/-- A run of digits and points that is as long as it can be and writes no number. -/
structure IsMalformedRun (front run rest : Text) : Prop where
  nonempty : run ≠ []
  numeric : ∀ c ∈ run, isNumeric c = true
  first : front.getLast?.any isNumeric = false
  last : rest.head?.any isNumeric = false
  malformed : (∀ c ∈ run, c.isDigit = false) ∨ 2 ≤ run.count '.'

/-- Behind `front` the sign `c` belongs to the number that goes on there. -/
def LeadsNumber (front : Text) (c : Char) : Prop :=
  isSign c = true ∧ ∃ ts, Token.ofText front = .ok ts ∧ OperandNext ts

/-- `lead` is the sign between `front` and a number that belongs to the number, or nothing if there
is none. -/
inductive IsLead (front : Text) : Text → Prop
  | sign {c : Char} (leads : LeadsNumber front c) : IsLead front [c]
  | nothing (unsigned : ∀ u c, front = u ++ [c] → ¬LeadsNumber u c) : IsLead front []

theorem malformed_iff (numeric : ∀ c ∈ run, isNumeric c = true) :
    ((∀ c ∈ run, c.isDigit = false) ∨ 2 ≤ run.count '.') ↔ ¬IsUnsigned run := by
  constructor
  · rintro (hdigit | hpoint) h
    · obtain ⟨c, hc, hc'⟩ := h.digit
      rw [hdigit c hc] at hc'
      cases hc'
    · have := h.point
      omega
  · intro h
    by_contra hno
    rw [not_or, not_le] at hno
    refine h ⟨fun c hc => ?_, ?_, by omega⟩
    · simpa [isNumeric] using numeric c hc
    · simpa using hno.1

theorem isNumeral_of_isNumeric (hc : isNumeric c = true) :
    IsNumeral (c :: run) ↔ IsUnsigned (c :: run) := by
  refine ⟨fun h => ?_, .unsigned⟩
  cases h with
  | unsigned h => exact h
  | signed sign => rcases sign with rfl | rfl <;> cases hc

theorem isNumeral_of_isSign (hc : isSign c = true) : IsNumeral (c :: run) ↔ IsUnsigned run := by
  refine ⟨fun h => ?_, fun h => .signed (by simpa [isSign] using hc) h⟩
  cases h with
  | unsigned h =>
    have hnumeric := h.isNumeric c List.mem_cons_self
    rw [(sign_classes hc).1] at hnumeric
    cases hnumeric
  | signed _ h => exact h

theorem exists_lead (hts : Token.ofText front = .ok ts)
    (severed : Severed true front (c :: (run ++ rest)))
    (begins : beginsNumber (signBehind true ts) c (run ++ rest) = true)
    (numeric : ∀ d ∈ run, isNumeric d = true) (ends : rest.head?.any isNumeric = false)
    (malformed : ¬IsNumeral (c :: run)) : ∃ lead digits, c :: run = lead ++ digits
      ∧ IsMalformedRun (front ++ lead) digits rest ∧ IsLead front lead := by
  simp only [beginsNumber, Bool.or_eq_true, Bool.and_eq_true] at begins
  rcases begins with hc | ⟨⟨hnext, hsign⟩, hrun⟩
  · have numeric : ∀ d ∈ c :: run, isNumeric d = true := List.forall_mem_cons.2 ⟨hc, numeric⟩
    rw [isNumeral_of_isNumeric hc, ← malformed_iff numeric] at malformed
    refine ⟨[], c :: run, rfl, ⟨List.cons_ne_nil c run, numeric, ?_, ends, malformed⟩, ?_⟩
    · rw [List.append_nil]
      exact severed.number hc
    · refine .nothing fun u d hfront hleads => ?_
      obtain ⟨hd, us, hus, hnext⟩ := hleads
      have hbehind := severed.sign hc u d us hfront hd hus
      rw [(Token.signBehind_iff us).2 hnext] at hbehind
      cases hbehind
  · rw [isNumeral_of_isSign hsign, ← malformed_iff numeric] at malformed
    refine ⟨[c], run, rfl, ⟨?_, numeric, ?_, ends, malformed⟩,
      .sign ⟨hsign, ts, hts, (Token.signBehind_iff ts).1 hnext⟩⟩
    · rintro rfl
      rw [List.nil_append, ends] at hrun
      cases hrun
    · simpa using (sign_classes hsign).1

theorem IsMalformedRun.unreadable (h : IsMalformedRun (front ++ lead) run rest)
    (hlead : IsLead front lead) (hts : Token.ofText front = .ok ts) :
    Severed true front (lead ++ (run ++ rest))
      ∧ Unreadable (signBehind true ts) (lead ++ (run ++ rest))
        (.malformedNumber (lead ++ run)) := by
  obtain ⟨nonempty, numeric, first, last, malformed⟩ := h
  rw [malformed_iff numeric] at malformed
  obtain ⟨d, run, rfl⟩ := List.exists_cons_of_ne_nil nonempty
  have hd := numeric d List.mem_cons_self
  cases hlead with
  | @sign c leads =>
    obtain ⟨hsign, us, hus, hnext⟩ := leads
    obtain rfl : us = ts := Except.ok.inj (hus.symm.trans hts)
    refine ⟨EndsLexeme.severed (sign_classes hsign), ?_⟩
    rw [← isNumeral_of_isSign hsign] at malformed
    refine .malformed ?_ numeric last malformed
    simp [beginsNumber, (Token.signBehind_iff us).2 hnext, hsign, hd]
  | nothing unsigned =>
    rw [List.append_nil] at first
    refine ⟨⟨fun _ => first, fun hletter => ?_, fun _ u c us hfront hc hus => ?_⟩, ?_⟩
    · have hd' : d.isAlpha = true := hletter
      rw [(numeric_classes hd).1] at hd'
      cases hd'
    · refine Bool.eq_false_iff.2 fun hnext => ?_
      exact unsigned u c hfront ⟨hc, us, hus, (Token.signBehind_iff us).1 hnext⟩
    · rw [← isNumeral_of_isNumeric hd] at malformed
      exact .malformed (by simp [beginsNumber, hd])
        (fun e he => numeric e (List.mem_cons_of_mem d he)) last malformed

/-- An unexpected character is the first one that stands in no token, and a malformed number is the
first run of digits and points that writes none, with the sign that belongs to it. -/
theorem ofText_eq_error_iff (s : Text) :
    (∀ c p, Token.ofText s = .error (.unexpectedChar c p) ↔ ∃ front rest, s = front ++ c :: rest
        ∧ front.length = p ∧ IsForeign c ∧ ∃ ts, Token.ofText front = .ok ts)
      ∧ ∀ w p, Token.ofText s = .error (.malformedNumber w p) ↔ ∃ front lead run rest,
        s = front ++ (lead ++ (run ++ rest)) ∧ front.length = p ∧ lead ++ run = w
          ∧ IsMalformedRun (front ++ lead) run rest ∧ IsLead front lead
          ∧ ∃ ts, Token.ofText front = .ok ts := by
  refine ⟨fun c p => ⟨fun h => ?_, ?_⟩, fun w p => ⟨fun h => ?_, ?_⟩⟩
  · obtain ⟨front, rest, ts, cause, rfl, hts, -, unreadable, hcause⟩ := (scan_eq_error_iff s).1 h
    rw [Nat.zero_add] at hcause
    cases unreadable with
    | foreign foreign =>
      cases hcause
      exact ⟨front, _, rfl, rfl, foreign, ts, hts⟩
    | malformed => cases hcause
  · rintro ⟨front, rest, rfl, rfl, foreign, ts, hts⟩
    obtain ⟨-, hnumeric, hletter, -⟩ := isForeign_iff.1 foreign
    have severed : Severed true front (c :: rest) := EndsLexeme.severed ⟨hnumeric, hletter⟩
    exact (scan_eq_error_iff _).2 ⟨front, c :: rest, ts, _, rfl, hts, severed, .foreign foreign,
      by rw [Nat.zero_add]⟩
  · obtain ⟨front, rest, ts, cause, rfl, hts, severed, unreadable, hcause⟩ :=
      (scan_eq_error_iff s).1 h
    rw [Nat.zero_add] at hcause
    cases unreadable with
    | foreign => cases hcause
    | malformed begins numeric ends malformed =>
      cases hcause
      obtain ⟨lead, digits, hrun, malformedRun, hlead⟩ :=
        exists_lead hts severed begins numeric ends malformed
      refine ⟨front, lead, digits, _, ?_, rfl, hrun.symm, malformedRun, hlead, ts, hts⟩
      rw [← List.cons_append, hrun, List.append_assoc]
  · rintro ⟨front, lead, run, rest, rfl, rfl, rfl, malformedRun, hlead, ts, hts⟩
    obtain ⟨severed, unreadable⟩ := malformedRun.unreadable hlead hts
    exact (scan_eq_error_iff _).2 ⟨front, _, ts, _, rfl, hts, severed, unreadable,
      by rw [Nat.zero_add]⟩

/-- A sign in front of a lone point belongs to it where a number may begin. -/
example : Token.ofText "(-.".toList = .error (.malformedNumber "-.".toList 1)
    ∧ Token.ofText "2-.".toList = .error (.malformedNumber ".".toList 2) := by
  decide +kernel

end Runs

end TexCalc
