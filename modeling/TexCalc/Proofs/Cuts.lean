import TexCalc.Proofs.Parts

/-!
# Cutting a text into lexemes

The lexer cuts a text into its tokens and the blanks between them, each token as long as it can be.
What it asks of the text around a lexeme can be told from the pieces of the cut (`Piece.IsMaximal`):
a text is read just if it can be cut so, and then it can in one way only (`ofText_iff_cut`).
-/

namespace TexCalc

/-- A lexeme of a text with the token that it writes and the blanks in front of it. -/
structure Piece where
  gap : Text
  token : Token
  lexeme : Text

namespace Piece

/-- The pieces one after the other. -/
def joined (ps : List Piece) : Text :=
  ps.flatMap fun p => p.gap ++ p.lexeme

/-- `p.IsMaximal front rest`: behind the pieces `front` and in front of the text `rest`, the lexeme
is as long as it can be. A number has a sign only where an operand is next, and there a sign in
front of a digit or a point is no operator. -/
structure IsMaximal (front : List Piece) (p : Piece) (rest : Text) : Prop where
  blank : p.gap.isBlank = true
  lexeme : Lexeme p.token p.lexeme
  number : ∀ x, p.token = .number x → rest.head?.any isNumeric = false
  sign : ∀ x, p.token = .number x → p.lexeme.head?.any isSign = true →
    Token.OperandNext (front.map token)
  letters : p.lexeme.head?.any Char.isAlpha = true →
    (joined front ++ p.gap).getLast?.any Char.isAlpha = false
      ∧ rest.head?.any Char.isAlpha = false
  operator : ∀ op, p.token = .operator op → isSign op.symbol = true →
    Token.OperandNext (front.map token) → rest.head?.any isNumeric = false

end Piece

/-- A text in pieces, and the blanks behind the last one. -/
structure Cut where
  pieces : List Piece
  trailing : Text

namespace Cut

def text (c : Cut) : Text :=
  Piece.joined c.pieces ++ c.trailing

def tokens (c : Cut) : List Token :=
  c.pieces.map Piece.token

structure IsMaximal (c : Cut) : Prop where
  trailing : c.trailing.isBlank = true
  pieces : ∀ front p back, c.pieces = front ++ p :: back →
    p.IsMaximal front (Piece.joined back ++ c.trailing)

end Cut

section Cuts

open Token (signBehind)

variable {front : List Piece} {p : Piece} {rest : Text}

theorem Piece.joined_cons (p : Piece) (back : List Piece) :
    joined (p :: back) = p.gap ++ (p.lexeme ++ joined back) := by
  simp [joined]

theorem Piece.IsMaximal.fits (h : p.IsMaximal front rest) :
    p.token.Fits (signBehind true (front.map Piece.token)) p.lexeme rest := by
  obtain ⟨gap, t, w⟩ := p
  obtain ⟨-, lexeme, number, sign, letters, operator⟩ := h
  cases lexeme.shape with
  | @numeral x c body head =>
    refine ⟨head.symm.imp (fun hsign => ?_) id, number x rfl⟩
    exact (Token.signBehind_iff _).2 (sign x rfl hsign)
  | name nonempty hletters fits =>
    obtain ⟨c, w, rfl⟩ := List.exists_cons_of_ne_nil nonempty
    exact (fits _ _).2 (letters (hletters c List.mem_cons_self)).2
  | symbol _ _ _ hoperator fits =>
    refine (fits _ _).2 (Bool.eq_false_iff.2 fun h => ?_)
    simp only [Bool.and_eq_true] at h
    obtain ⟨⟨hnext, hsign⟩, hnumeric⟩ := h
    obtain ⟨op, rfl⟩ := hoperator hsign
    cases lexeme
    rw [operator op rfl hsign ((Token.signBehind_iff _).1 hnext)] at hnumeric
    cases hnumeric

theorem Piece.isMaximal_of_fits {gap w : Text} {t : Token} (blank : gap.isBlank = true)
    (lexeme : Lexeme t w) (fits : t.Fits (signBehind true (front.map Piece.token)) w rest)
    (hfront : (gap ++ w).head?.any Char.isAlpha = true →
      (joined front).getLast?.any Char.isAlpha = false) :
    Piece.IsMaximal front ⟨gap, t, w⟩ rest := by
  refine ⟨blank, lexeme, ?_, ?_, fun hletter => ⟨?_, ?_⟩, ?_⟩
  · rintro x rfl
    exact fits.2
  · rintro x rfl hsign
    refine (Token.signBehind_iff _).1 (fits.1.resolve_right fun hnumeric => ?_)
    cases w with
    | nil => cases hsign
    | cons c w =>
      rw [List.head?_cons, Option.any_some] at hsign hnumeric
      rw [(sign_classes hsign).1] at hnumeric
      cases hnumeric
  · rcases List.eq_nil_or_concat' gap with rfl | ⟨gap, c, rfl⟩
    · rw [List.append_nil]
      exact hfront hletter
    · have hblank : isBlank c = true := List.all_eq_true.1 blank c (by simp)
      rw [← List.append_assoc, List.getLast?_concat, Option.any_some]
      exact (blank_classes hblank).2.1
  · cases w with
    | nil => cases hletter
    | cons c w => exact (lexeme.fits_name hletter _ _).1 fits
  · rintro op rfl hsign hnext
    have hrest : (signBehind true (front.map Piece.token) && isSign op.symbol
      && rest.head?.any isNumeric) = false := fits
    rwa [(Token.signBehind_iff _).2 hnext, hsign, Bool.true_and, Bool.true_and] at hrest

theorem Cut.IsMaximal.reads {c : Cut} (h : c.IsMaximal) {pieces : List Piece} :
    ∀ front, c.pieces = front ++ pieces → Reads (signBehind true (front.map Piece.token))
      (Piece.joined pieces ++ c.trailing) (pieces.map Piece.token) := by
  induction pieces with
  | nil => exact fun _ _ => (reads_blank_iff h.trailing).2 rfl
  | cons p pieces ih =>
    intro front hpieces
    have hp := h.pieces front p pieces hpieces
    have hrest := ih (front ++ [p]) (by simpa using hpieces)
    rw [List.map_append, List.map_singleton, Token.signBehind_append_singleton] at hrest
    rw [Piece.joined_cons, List.append_assoc, List.append_assoc, reads_behind_gap_iff hp.blank]
    exact hrest.cons hp.lexeme hp.fits

/-- Whatever is read can be cut, behind any pieces that end in no name which goes on. -/
theorem exists_pieces {s : Bool} {t : Text} {ts : List Token} (h : Reads s t ts) :
    ∀ front : List Piece, signBehind true (front.map Piece.token) = s →
      (t.head?.any Char.isAlpha = true → (Piece.joined front).getLast?.any Char.isAlpha = false) →
      ∃ pieces trailing, t = Piece.joined pieces ++ trailing ∧ ts = pieces.map Piece.token
        ∧ trailing.isBlank = true ∧ ∀ before p back, pieces = before ++ p :: back →
          p.IsMaximal (front ++ before) (Piece.joined back ++ trailing) := by
  induction h using Reads.induction with
  | @nothing _ gap blank =>
    intro front _ _
    exact ⟨[], gap, rfl, rfl, blank, by simp⟩
  | @lexeme _ gap w rest tok _ blank lexeme fits _ ih =>
    rintro front rfl hfront
    have hp : Piece.IsMaximal front ⟨gap, tok, w⟩ rest := by
      refine Piece.isMaximal_of_fits blank lexeme fits fun hhead => hfront ?_
      rw [← List.append_assoc, List.head?_append]
      cases hd : (gap ++ w).head? with
      | none => simp [hd] at hhead
      | some c => simpa [hd] using hhead
    have hlast : rest.head?.any Char.isAlpha = true →
        (Piece.joined (front ++ [⟨gap, tok, w⟩])).getLast?.any Char.isAlpha = false := by
      intro hrest
      have hw := (lexeme.fits_iff.1 fits).2.2.1 hrest
      have hc := List.getLast?_eq_some_getLast lexeme.ne_nil
      rw [hc] at hw
      simpa [Piece.joined, List.getLast?_append, hc] using hw
    have hsign : signBehind true ((front ++ [(⟨gap, tok, w⟩ : Piece)]).map Piece.token)
        = tok.kind.allowsSign := by
      rw [List.map_append, List.map_singleton, Token.signBehind_append_singleton]
    obtain ⟨pieces, trailing, rfl, rfl, htrailing, hpieces⟩ := ih _ hsign hlast
    refine ⟨⟨gap, tok, w⟩ :: pieces, trailing, ?_, rfl, htrailing, ?_⟩
    · simp [Piece.joined_cons]
    · rintro (_ | ⟨q, before⟩) p back heq
      · cases heq
        rwa [List.append_nil]
      · cases heq
        simpa using hpieces before p back rfl

/-- The tokens of a text tell where it is cut. -/
theorem Piece.eq_of_joined {ps : List Piece} : ∀ {ps' : List Piece} {trailing trailing' : Text},
    (∀ before p back, ps = before ++ p :: back →
      ∃ front, p.IsMaximal front (joined back ++ trailing)) →
    (∀ before p back, ps' = before ++ p :: back →
      ∃ front, p.IsMaximal front (joined back ++ trailing')) →
    ps.map token = ps'.map token → joined ps ++ trailing = joined ps' ++ trailing' →
    ps = ps' ∧ trailing = trailing' := by
  induction ps with
  | nil =>
    intro ps' trailing trailing' _ _ htokens htext
    obtain rfl : ps' = [] := by simpa using htokens.symm
    exact ⟨rfl, htext⟩
  | cons p ps ih =>
    intro ps' trailing trailing' hps hps' htokens htext
    obtain ⟨p', ps', rfl⟩ : ∃ p' us, ps' = p' :: us := by
      cases ps' with
      | nil => cases htokens
      | cons p' us => exact ⟨p', us, rfl⟩
    obtain ⟨front, hp⟩ := hps [] p ps rfl
    obtain ⟨front', hp'⟩ := hps' [] p' ps' rfl
    injection htokens with htoken htokens
    rw [joined_cons, joined_cons, List.append_assoc, List.append_assoc, List.append_assoc,
      List.append_assoc] at htext
    have hgap : p.gap = p'.gap := by
      rw [← takeWhile_run (List.all_eq_true.1 hp.blank) (hp.lexeme.head_not_blank _), htext,
        takeWhile_run (List.all_eq_true.1 hp'.blank) (hp'.lexeme.head_not_blank _)]
    rw [hgap, List.append_cancel_left_eq] at htext
    have hlexeme : p.lexeme = p'.lexeme :=
      hp.lexeme.eq_of_append (htoken ▸ hp'.lexeme) hp.fits (htoken ▸ hp'.fits) htext
    rw [hlexeme, List.append_cancel_left_eq] at htext
    obtain ⟨rfl, rfl⟩ := ih (fun before q back heq => hps (p :: before) q back (by rw [heq]; rfl))
      (fun before q back heq => hps' (p' :: before) q back (by rw [heq]; rfl)) htokens htext
    obtain ⟨gap, t, w⟩ := p
    obtain ⟨gap', t', w'⟩ := p'
    cases hgap
    cases htoken
    cases hlexeme
    exact ⟨rfl, rfl⟩

theorem Cut.IsMaximal.ofText_text {c : Cut} (h : c.IsMaximal) :
    Token.ofText c.text = .ok c.tokens :=
  h.reads [] rfl

theorem Cut.IsMaximal.unique {c c' : Cut} (h : c.IsMaximal) (h' : c'.IsMaximal)
    (htext : c.text = c'.text) : c = c' := by
  have htokens : c.tokens = c'.tokens := by
    have hread := h.ofText_text
    rw [htext, h'.ofText_text] at hread
    exact (Except.ok.inj hread).symm
  obtain ⟨pieces, trailing⟩ := c
  obtain ⟨pieces', trailing'⟩ := c'
  obtain ⟨rfl, rfl⟩ := Piece.eq_of_joined (fun before p back heq => ⟨_, h.pieces before p back heq⟩)
    (fun before p back heq => ⟨_, h'.pieces before p back heq⟩) htokens htext
  rfl

/-- Tokens are read from a text just if it has a maximal cut into them, and that is its only one. -/
theorem ofText_iff_cut (s : Text) (ts : List Token) : Token.ofText s = .ok ts
    ↔ ∃ c : Cut, (c.IsMaximal ∧ c.text = s ∧ c.tokens = ts)
      ∧ ∀ c' : Cut, c'.IsMaximal → c'.text = s → c' = c := by
  constructor
  · intro h
    obtain ⟨pieces, trailing, rfl, rfl, htrailing, hpieces⟩ :=
      exists_pieces (s := true) h [] rfl fun _ => rfl
    have hc : Cut.IsMaximal ⟨pieces, trailing⟩ := ⟨htrailing, hpieces⟩
    exact ⟨_, ⟨hc, rfl, rfl⟩, fun c' hc' htext => hc'.unique hc htext⟩
  · rintro ⟨c, ⟨hc, rfl, rfl⟩, -⟩
    exact hc.ofText_text

/-- The first of these signs belongs to the number behind it, and the second one is a difference. -/
example : Token.ofText "-2 -3".toList = .ok [.number (-2), .operator .minus, .number 3] := by
  decide +kernel

end Cuts

end TexCalc
