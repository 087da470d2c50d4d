import TexCalc.Grammar
import TexCalc.Token.Spelling

/-!
# Reading spelled tokens

The lexer reads a lexeme as its token wherever what stands around fits it (`scan_lexeme`). In a list
in which operands and operators alternate everything fits, with blanks or without: a sign in front
of an operand is part of a number and one behind it is an operator, and no two names or numbers meet
(`scan_of_alternates`). The tokens of an expression without bare functions alternate
(`alternates_of_writes`).
-/

namespace TexCalc

section Runs

variable {p : Char → Bool} {w rest : Text}

theorem takeWhile_run (hw : ∀ c ∈ w, p c = true) (hrest : rest.head?.any p = false) :
    (w ++ rest).takeWhile p = w := by
  rw [List.takeWhile_append_of_pos hw]
  cases rest with
  | nil => simp
  | cons c rest => simp_all

theorem dropWhile_run (hw : ∀ c ∈ w, p c = true) (hrest : rest.head?.any p = false) :
    (w ++ rest).dropWhile p = rest := by
  rw [List.dropWhile_append_of_pos hw]
  cases rest with
  | nil => rfl
  | cons c rest => simp_all

end Runs

theorem blank_classes {c : Char} (h : isBlank c = true) :
    isNumeric c = false ∧ c.isAlpha = false ∧ isSign c = false := by
  have hall : blanks.all (fun c => !isNumeric c && !c.isAlpha && !isSign c) = true := by decide
  have hc := List.all_eq_true.1 hall c (by simpa [isBlank] using h)
  simpa [and_assoc] using hc

theorem isBlank_eq_false {c : Char} (h : isNumeric c = true ∨ c.isAlpha = true ∨ isSign c = true) :
    isBlank c = false := by
  refine Bool.eq_false_iff.2 fun hb => ?_
  obtain ⟨hnumeric, halpha, hsign⟩ := blank_classes hb
  simp [hnumeric, halpha, hsign] at h

theorem letter_classes {c : Char} (h : c.isAlpha = true) :
    isNumeric c = false ∧ isSign c = false := by
  have hdigit : c.isDigit = false := by
    change (decide (c.val ≥ 65 ∧ c.val ≤ 90) || (decide (c.val ≥ 97) && decide (c.val ≤ 122)))
      = true at h
    change (decide (c.val ≥ 48) && decide (c.val ≤ 57)) = false
    grind
  have hc : c ≠ '.' ∧ c ≠ '+' ∧ c ≠ '-' := by
    refine ⟨?_, ?_, ?_⟩ <;> rintro rfl <;> simp at h
  simp [isNumeric, isSign, hdigit, hc]

theorem sign_classes {c : Char} (h : isSign c = true) :
    isNumeric c = false ∧ c.isAlpha = false := by
  simp only [isSign, Bool.or_eq_true, beq_iff_eq] at h
  rcases h with rfl | rfl <;> decide

theorem numeric_classes {c : Char} (h : isNumeric c = true) :
    c.isAlpha = false ∧ isSign c = false := by
  constructor
  · refine Bool.eq_false_iff.2 fun hletter => ?_
    rw [(letter_classes hletter).1] at h
    cases h
  · refine Bool.eq_false_iff.2 fun hsign => ?_
    rw [(sign_classes hsign).1] at h
    cases h

theorem not_beginsNumber_of_isAlpha {c : Char} (h : c.isAlpha = true) (signAllowed : Bool)
    (rest : Text) : beginsNumber signAllowed c rest = false := by
  simp [beginsNumber, letter_classes h]

namespace IsUnsigned

theorem isNumeric {w : Text} (h : IsUnsigned w) : ∀ c ∈ w, isNumeric c = true := by
  intro c hc
  rcases h.numeric c hc with hdigit | rfl
  · simp [TexCalc.isNumeric, hdigit]
  · rfl

theorem exists_cons {w : Text} (h : IsUnsigned w) : ∃ c body, w = c :: body := by
  obtain ⟨c, hc, -⟩ := h.digit
  exact List.exists_cons_of_ne_nil (List.ne_nil_of_mem hc)

end IsUnsigned

namespace Token

variable {signAllowed : Bool} {position : Nat}

theorem scan_gap (rest : Text) : ∀ {gap : Text} {position : Nat}, gap.isBlank = true →
    scan signAllowed position (gap ++ rest) = scan signAllowed (position + gap.length) rest
  | [], _, _ => rfl
  | c :: gap, position, h => by
    simp only [Text.isBlank, List.all_cons, Bool.and_eq_true] at h
    rw [List.cons_append, scan, if_pos h.1, scan_gap rest h.2, List.length_cons]
    congr 1
    omega

theorem scan_blank {gap : Text} (blank : gap.isBlank = true) :
    scan signAllowed position gap = .ok [] := by
  rw [← List.append_nil gap, scan_gap [] blank, scan]

theorem scan_number {c : Char} {body rest : Text} {x : Float} (hblank : isBlank c = false)
    (hc : beginsNumber signAllowed c (body ++ rest) = true) (hbody : ∀ d ∈ body, isNumeric d = true)
    (hrest : rest.head?.any isNumeric = false) (hread : Numeral.read? (c :: body) = some x) :
    scan signAllowed position (c :: (body ++ rest))
      = (scan false (position + (c :: body).length) rest).map (.number x :: ·) := by
  rw [scan, if_neg (by simp [hblank]), if_pos hc, takeWhile_run hbody hrest,
    dropWhile_run hbody hrest]
  simp only [hread]

theorem scan_name {name rest : Text} (hne : name ≠ []) (hname : ∀ c ∈ name, c.isAlpha = true)
    (hrest : rest.head?.any Char.isAlpha = false) :
    scan signAllowed position (name ++ rest)
      = (scan false (position + name.length) rest).map (ofName name :: ·) := by
  cases name with
  | nil => exact absurd rfl hne
  | cons c name =>
    have hc := hname c List.mem_cons_self
    have hname := fun d hd => hname d (List.mem_cons_of_mem c hd)
    rw [List.cons_append, scan, if_neg (by simp [isBlank_eq_false (.inr (.inl hc))]),
      if_neg (by simp [not_beginsNumber_of_isAlpha hc]), if_pos hc, takeWhile_run hname hrest,
      dropWhile_run hname hrest]

theorem scan_char {c : Char} {t : Token} {rest : Text} (hblank : isBlank c = false)
    (hnumber : beginsNumber signAllowed c rest = false) (halpha : c.isAlpha = false)
    (ht : ofChar? c = some t) : scan signAllowed position (c :: rest)
      = (scan t.kind.allowsSign (position + 1) rest).map (t :: ·) := by
  rw [scan, if_neg (by simp [hblank]), if_neg (by simp [hnumber]), if_neg (by simp [halpha])]
  simp only [ht]

/-- What must stand around a lexeme `w` of a token for it to be read as such: a sign is allowed
where a signed number begins and not where an operator stands in front of a number, and a number or
a name does not go on in the text behind it. -/
def Fits (signAllowed : Bool) (w rest : Text) : Token → Prop
  | .number _ => (signAllowed = true ∨ w.head?.any isNumeric = true)
    ∧ rest.head?.any isNumeric = false
  | .constant _ | .function _ | .unknown _ => rest.head?.any Char.isAlpha = false
  | .operator op => (signAllowed && isSign op.symbol && rest.head?.any isNumeric) = false
  | .openParen | .closeParen => True

theorem scan_lexeme {t : Token} {w rest : Text} (h : Lexeme t w)
    (fits : t.Fits signAllowed w rest) :
    scan signAllowed position (w ++ rest)
      = (scan t.kind.allowsSign (position + w.length) rest).map (t :: ·) := by
  cases h with
  | @number w h =>
    have hread := Numeral.read?_eq_value h
    obtain ⟨hsign, hrest⟩ := fits
    cases h with
    | unsigned h =>
      obtain ⟨c, body, rfl⟩ := h.exists_cons
      have hnumeric := h.isNumeric
      have hc := hnumeric c List.mem_cons_self
      exact scan_number (isBlank_eq_false (.inl hc)) (by simp [beginsNumber, hc])
        (fun d hd => hnumeric d (List.mem_cons_of_mem c hd)) hrest hread
    | @signed c body sign h =>
      have hc : isSign c = true := by rcases sign with rfl | rfl <;> rfl
      have hnumeric := h.isNumeric
      have hallowed : signAllowed = true := by
        refine hsign.resolve_right ?_
        rcases sign with rfl | rfl <;> simp [isNumeric]
      refine scan_number (isBlank_eq_false (.inr (.inr hc))) ?_ hnumeric hrest hread
      obtain ⟨d, body, rfl⟩ := h.exists_cons
      simp [beginsNumber, hallowed, hc, hnumeric d List.mem_cons_self]
  | constant k =>
    have hof : ofName k.name = .constant k := by cases k <;> rfl
    rw [scan_name (by cases k <;> decide) k.isAlpha_of_mem_name fits, hof]
    rfl
  | operator op =>
    have hnumber : beginsNumber signAllowed op.symbol rest = false := by
      have hnumeric : isNumeric op.symbol = false := by cases op <;> rfl
      rw [beginsNumber, hnumeric]
      exact fits
    exact scan_char (by cases op <;> rfl) hnumber (by cases op <;> rfl) (by cases op <;> rfl)
  | function f =>
    have hof : ofName f.name = .function f := by rw [ofName, Func.ofName?_name]
    rw [scan_name (by cases f <;> decide) f.isAlpha_of_mem_name fits, hof]
    rfl
  | unknown nonempty letters noFunction noConstant =>
    have hf : Func.ofName? w = none := List.find?_eq_none.2 fun f _ => by simp [noFunction f]
    have hk : Constant.ofName? w = none := List.find?_eq_none.2 fun k _ => by simp [noConstant k]
    have hof : ofName w = .unknown w := by rw [ofName, hf, hk]
    rw [scan_name nonempty letters fits, hof]
    rfl
  | openParen => exact scan_char rfl (by simp [beginsNumber, isNumeric, isSign]) rfl rfl
  | closeParen => exact scan_char rfl (by simp [beginsNumber, isNumeric, isSign]) rfl rfl

end Token

/-- What must come next in a text: an operand, the group that a function is applied to, or an
operator or the end of a group. -/
inductive Expects
  | operand
  | argument
  | operator

/-- `Alternates next ts`: operands and operators alternate from what comes next on, and the last
token completes an operand. -/
inductive Alternates : Expects → List Token → Prop
  | nil : Alternates .operator []
  | number {ts : List Token} (x : Float) (rest : Alternates .operator ts) :
      Alternates .operand (.number x :: ts)
  | constant {ts : List Token} (k : Constant) (rest : Alternates .operator ts) :
      Alternates .operand (.constant k :: ts)
  | function {ts : List Token} (f : Func) (rest : Alternates .argument ts) :
      Alternates .operand (.function f :: ts)
  | openGroup {ts : List Token} (rest : Alternates .operand ts) :
      Alternates .operand (.openParen :: ts)
  | openArgument {ts : List Token} (rest : Alternates .operand ts) :
      Alternates .argument (.openParen :: ts)
  | operator {ts : List Token} (op : Operator) (rest : Alternates .operand ts) :
      Alternates .operator (.operator op :: ts)
  | close {ts : List Token} (rest : Alternates .operator ts) :
      Alternates .operator (.closeParen :: ts)

/-- An expression without bare functions is an operand for what follows it. -/
theorem alternates_of_writes {trailing : Bool} {rank : Rank} {ts : List Token} {e : Expr}
    (h : Writes false trailing rank ts e) : ∀ {us : List Token}, Alternates .operator us →
      Alternates .operand (ts ++ us) := by
  induction h with
  | number x => exact .number x
  | constant k => exact .constant k
  | group _ ih =>
    intro us hus
    simpa using .openGroup (ih (.close hus))
  | call f _ ih =>
    intro us hus
    simpa using .function f (.openArgument (ih (.close hus)))
  | bareCall f allowed => cases allowed
  | operation op _ _ ihx ihy =>
    intro us hus
    simpa using ihx (.operator op (ihy hus))
  | loosen _ _ ih => exact ih

theorem head_of_spells {p : Char → Bool} (hblank : ∀ c, isBlank c = true → p c = false)
    {ts : List Token} {t : Text} (h : Spells ts t)
    (hhead : ∀ tok w, ts.head? = some tok → Lexeme tok w → ∃ c v, w = c :: v ∧ p c = false) :
    t.head?.any p = false := by
  have hgap : ∀ {gap rest : Text}, gap.isBlank = true → rest.head?.any p = false →
      (gap ++ rest).head?.any p = false := by
    intro gap rest hgap hrest
    cases gap with
    | nil => exact hrest
    | cons c gap =>
      simp only [Text.isBlank, List.all_cons, Bool.and_eq_true] at hgap
      exact hblank c hgap.1
  cases h with
  | nil blank => simpa using hgap blank (rfl : ([] : Text).head?.any p = false)
  | cons blank lexeme further =>
    obtain ⟨c, v, rfl, hc⟩ := hhead _ _ rfl lexeme
    rw [List.append_assoc]
    exact hgap blank hc

/-- What the lexer remembers of the tokens behind it. -/
def Expects.allowsSign : Expects → Bool
  | .operand => true
  | .argument | .operator => false

/-- Where an operator or the end of a group comes next, no number and no name goes on. -/
theorem head_of_operator {ts : List Token} {t : Text} (h : Spells ts t)
    (hts : Alternates .operator ts) :
    t.head?.any isNumeric = false ∧ t.head?.any Char.isAlpha = false := by
  have hhead : ∀ tok w, ts.head? = some tok → Lexeme tok w →
      ∃ c v, w = c :: v ∧ isNumeric c = false ∧ c.isAlpha = false := by
    intro tok w htok hw
    cases hts with
    | nil => cases htok
    | operator op =>
      cases htok
      cases hw
      exact ⟨op.symbol, [], rfl, by cases op <;> decide⟩
    | close =>
      cases htok
      cases hw
      exact ⟨')', [], rfl, by decide⟩
  constructor
  · refine head_of_spells (fun c hc => (blank_classes hc).1) h fun tok w htok hw => ?_
    obtain ⟨c, v, rfl, hc, -⟩ := hhead tok w htok hw
    exact ⟨c, v, rfl, hc⟩
  · refine head_of_spells (fun c hc => (blank_classes hc).2.1) h fun tok w htok hw => ?_
    obtain ⟨c, v, rfl, -, hc⟩ := hhead tok w htok hw
    exact ⟨c, v, rfl, hc⟩

theorem head_of_argument {ts : List Token} {t : Text} (h : Spells ts t)
    (hts : Alternates .argument ts) : t.head?.any Char.isAlpha = false := by
  refine head_of_spells (fun c hc => (blank_classes hc).2.1) h fun tok w htok hw => ?_
  cases hts
  cases htok
  cases hw
  exact ⟨'(', [], rfl, by decide⟩

/-- Alternating tokens are read from every text that spells them. -/
theorem scan_of_alternates {ts : List Token} {t : Text} (h : Spells ts t) :
    ∀ {next : Expects} {position : Nat}, Alternates next ts →
      Token.scan next.allowsSign position t = .ok ts := by
  induction h with
  | @nil gap blank =>
    intro next position hts
    exact Token.scan_blank blank
  | @cons t ts gap w further blank lexeme rest ih =>
    intro next position hts
    have hread : ∀ {after : Expects}, t.kind.allowsSign = after.allowsSign →
        t.Fits next.allowsSign w further → Alternates after ts →
        Token.scan next.allowsSign position (gap ++ w ++ further) = .ok (t :: ts) := by
      intro after hsign hfits hafter
      rw [List.append_assoc, Token.scan_gap _ blank, Token.scan_lexeme lexeme hfits, hsign,
        ih hafter]
      rfl
    cases hts with
    | number x hrest => exact hread rfl ⟨.inl rfl, (head_of_operator rest hrest).1⟩ hrest
    | constant k hrest => exact hread rfl (head_of_operator rest hrest).2 hrest
    | function f hrest => exact hread rfl (head_of_argument rest hrest) hrest
    | openGroup hrest => exact hread rfl trivial hrest
    | openArgument hrest => exact hread rfl trivial hrest
    | operator op hrest => exact hread rfl rfl hrest
    | close hrest => exact hread rfl trivial hrest

end TexCalc
