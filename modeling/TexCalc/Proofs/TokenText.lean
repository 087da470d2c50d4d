import TexCalc.Proofs.DecimalText
import TexCalc.Proofs.Parts

/-!
# The text of tokens is read as those tokens

Tokens written one after the other with a space between any two are read back (`ofText_listText`)
if they are legible: their numbers are finite, a sign of a number stands where the lexer takes it
for one, and their unknown names are names and unknown. What the lexer reads from any text is
legible but for numbers beyond all doubles (`inPlace_of_scan`).
-/

namespace TexCalc

/-- Tokens that can be told from their texts. -/
structure Legible (ts : List Token) : Prop where
  finite : ∀ x, .number x ∈ ts → ∃ negative units, Double.ofFloat x = .finite negative units
  sign : ∀ front x units back, ts = front ++ .number x :: back →
    Double.ofFloat x = .finite true units →
    ∀ t ∈ front.getLast?, (∃ op, t = .operator op) ∨ t = .openParen
  name : ∀ name, .unknown name ∈ ts → name ≠ [] ∧ (∀ c ∈ name, c.isAlpha = true)
    ∧ (∀ f : Func, f.name ≠ name) ∧ ∀ k : Constant, k.name ≠ name

namespace Token

/-- What a token must be for its text to be read as it, where a sign is allowed or not. -/
def Allowed (signAllowed : Bool) : Token → Prop
  | .number x => ∀ units, Double.ofFloat x = .finite true units → signAllowed = true
  | .unknown name => name ≠ [] ∧ (∀ c ∈ name, c.isAlpha = true)
    ∧ (∀ f : Func, f.name ≠ name) ∧ ∀ k : Constant, k.name ≠ name
  | _ => True

/-- Every token is allowed behind those in front of it. -/
def InPlace (signAllowed : Bool) (ts : List Token) : Prop :=
  ∀ front t back, ts = front ++ t :: back → t.Allowed (signBehind signAllowed front)

theorem InPlace.nil {signAllowed : Bool} : InPlace signAllowed [] := by
  intro front t back h
  cases front <;> cases h

theorem InPlace.cons {signAllowed : Bool} {t : Token} {ts : List Token}
    (ht : t.Allowed signAllowed) (hts : InPlace t.kind.allowsSign ts) :
    InPlace signAllowed (t :: ts) := by
  rintro (_ | ⟨u, front⟩) v back h
  · cases h
    exact ht
  · cases h
    exact hts front v back rfl

theorem legible_iff {ts : List Token} : Legible ts
    ↔ (∀ x, .number x ∈ ts → ∃ negative units, Double.ofFloat x = .finite negative units)
      ∧ InPlace true ts := by
  constructor
  · intro h
    refine ⟨h.finite, fun front t back hts => ?_⟩
    cases t with
    | number x =>
      intro units hx
      exact (signBehind_iff front).2 (h.sign front x units back hts hx)
    | unknown name => exact h.name name (by simp [hts])
    | constant | operator | function | openParen | closeParen => trivial
  · rintro ⟨finite, allowed⟩
    refine ⟨finite, fun front x units back hts hx => ?_, fun name hname => ?_⟩
    · exact (signBehind_iff front).1 (allowed front (.number x) back hts units hx)
    · obtain ⟨front, back, hts⟩ := List.append_of_mem hname
      exact allowed front (.unknown name) back hts

theorem Allowed.lexeme {signAllowed : Bool} {t : Token} (h : t.Allowed signAllowed)
    (finite : ∀ x, t = .number x → ∃ negative units, Double.ofFloat x = .finite negative units) :
    Lexeme t t.toText := by
  cases t with
  | number x =>
    obtain ⟨negative, units, hx⟩ := finite x rfl
    exact Double.lexeme_toText hx
  | constant k => exact .constant k
  | operator op => exact .operator op
  | function f => exact .function f
  | unknown name =>
    obtain ⟨nonempty, letters, noFunction, noConstant⟩ := h
    exact .unknown nonempty letters noFunction noConstant
  | openParen => exact .openParen
  | closeParen => exact .closeParen

theorem Allowed.fits {signAllowed : Bool} {t : Token} (h : t.Allowed signAllowed)
    (finite : ∀ x, t = .number x → ∃ negative units, Double.ofFloat x = .finite negative units)
    {rest : Text} (hrest : EndsLexeme rest) : t.Fits signAllowed t.toText rest := by
  cases t with
  | number x =>
    refine ⟨?_, hrest.1⟩
    obtain ⟨negative, units, hx⟩ := finite x rfl
    cases negative with
    | true => exact .inl (h units hx)
    | false =>
      have hunsigned := Double.isUnsigned_toText units
      obtain ⟨c, body, hbody⟩ := hunsigned.exists_cons
      rw [toText, hx, hbody]
      exact .inr (hunsigned.isNumeric c (by rw [hbody]; exact List.mem_cons_self))
  | constant | function | unknown => exact hrest.2
  | operator op => simp [Fits, hrest.1]
  | openParen | closeParen => trivial

theorem listText_cons (t : Token) (ts : List Token) : ∃ gap, gap.isBlank = true
    ∧ EndsLexeme (gap ++ listText ts) ∧ listText (t :: ts) = t.toText ++ (gap ++ listText ts) := by
  cases ts with
  | nil => exact ⟨[], rfl, ⟨rfl, rfl⟩, (List.append_nil _).symm⟩
  | cons u ts => exact ⟨[' '], rfl, ⟨rfl, rfl⟩, rfl⟩

/-- Legible tokens are read from their text, whatever stood in front of them. -/
theorem scan_listText {ts : List Token} : ∀ (front : List Token) (position : Nat),
    Legible (front ++ ts) → scan (signBehind true front) position (listText ts) = .ok ts := by
  induction ts with
  | nil =>
    intro front position _
    rw [listText, scan]
  | cons t ts ih =>
    intro front position h
    have finite : ∀ x, t = .number x →
        ∃ negative units, Double.ofFloat x = .finite negative units :=
      fun x hx => h.finite x (by simp [hx])
    have allowed := (legible_iff.1 h).2 front t ts rfl
    obtain ⟨gap, blank, ends, htext⟩ := listText_cons t ts
    rw [List.append_cons] at h
    rw [htext, scan_lexeme (allowed.lexeme finite) (allowed.fits finite ends), scan_gap _ blank,
      ← signBehind_append_singleton, ih _ _ h]
    rfl

theorem ofText_listText {ts : List Token} (h : Legible ts) : ofText (listText ts) = .ok ts :=
  scan_listText [] 0 h

theorem read?_negative {c : Char} {body : Text} {x : Float} {units : Nat}
    (hread : Numeral.read? (c :: body) = some x) (hx : Double.ofFloat x = .finite true units) :
    c = '-' := by
  by_contra hc
  have hsplit : (Numeral.splitSign (c :: body)).1 = false := by
    unfold Numeral.splitSign
    split
    · next h =>
      cases h
      exact absurd rfl hc
    · rfl
    · rfl
  unfold Numeral.read? at hread
  dsimp only at hread
  rw [hsplit] at hread
  split at hread
  · cases hread
    rcases Double.ofFloat_nearest false _ _ with h | ⟨_, h⟩ <;> rw [h] at hx <;> cases hx
  · cases hread

theorem Allowed.of_fits {signAllowed : Bool} {t : Token} {w rest : Text} (h : Lexeme t w)
    (fits : t.Fits signAllowed w rest) : t.Allowed signAllowed := by
  cases h with
  | number h =>
    intro units hx
    refine fits.1.resolve_right fun hnumeric => ?_
    cases w with
    | nil => cases hnumeric
    | cons c body =>
      obtain rfl := read?_negative (Numeral.read?_eq_value h) hx
      cases hnumeric
  | unknown nonempty letters noFunction noConstant =>
    exact ⟨nonempty, letters, noFunction, noConstant⟩
  | constant | operator | function | openParen | closeParen => trivial

theorem inPlace_of_scan {signAllowed : Bool} {position : Nat} {text : Text} {ts : List Token}
    (h : scan signAllowed position text = .ok ts) : InPlace signAllowed ts := by
  rw [← reads_iff_scan] at h
  induction h using Reads.induction with
  | nothing => exact .nil
  | lexeme _ lexeme fits _ ih => exact .cons (.of_fits lexeme fits) ih

end Token

/-- Legible tokens are read back from their text, and what is read from any text is legible where
its numbers are finite. -/
theorem listText_reads_back :
    (∀ ts, Legible ts → Token.ofText (Token.listText ts) = .ok ts) ∧
      ∀ t ts, Token.ofText t = .ok ts →
        (∀ x, .number x ∈ ts → ∃ negative units, Double.ofFloat x = .finite negative units) →
        Legible ts ∧ Token.ofText (Token.listText ts) = .ok ts := by
  refine ⟨fun ts h => Token.ofText_listText h, fun t ts hts finite => ?_⟩
  have legible : Legible ts := Token.legible_iff.2 ⟨finite, Token.inPlace_of_scan hts⟩
  exact ⟨legible, Token.ofText_listText legible⟩

/-- Two signs that belong to numbers and one that does not. -/
theorem listText_reads_back_signs : ∃ ts, Legible ts
    ∧ Token.ofText "-0*(-2.5-xy)".toList = .ok ts
    ∧ Token.listText ts = "-0 * ( -2.5 - xy )".toList
    ∧ Token.ofText "-0 * ( -2.5 - xy )".toList = .ok ts := by
  have hread : Token.ofText "-0*(-2.5-xy)".toList = .ok [.number (-0), .operator .times, .openParen,
      .number (-2.5), .operator .minus, .unknown "xy".toList, .closeParen] := by decide +kernel
  have htext : Token.listText [.number (-0), .operator .times, .openParen, .number (-2.5),
      .operator .minus, .unknown "xy".toList, .closeParen] = "-0 * ( -2.5 - xy )".toList := by
    decide +kernel
  have hzero : Double.ofFloat (-0) = .finite true 0 := by decide +kernel
  have hfinite : ∃ units, Double.ofFloat (-2.5) = .finite true units :=
    ⟨Double.magnitude 0x4004000000000000, by decide +kernel⟩
  obtain ⟨legible, -⟩ := listText_reads_back.2 _ _ hread (by
    intro x hx
    simp only [List.mem_cons, Token.number.injEq, reduceCtorEq, List.not_mem_nil, false_or,
      or_false] at hx
    rcases hx with rfl | rfl
    · exact ⟨true, 0, hzero⟩
    · exact ⟨true, hfinite⟩)
  exact ⟨_, legible, hread, htext, htext ▸ listText_reads_back.1 _ legible⟩

end TexCalc
