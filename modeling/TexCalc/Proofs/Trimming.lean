import TexCalc.Proofs.Groups
import TexCalc.Proofs.Log
import TexCalc.Proofs.Translation

/-!
# What is previewed is what is recorded

The preview is that of the entry as it stands, and a submission evaluates the entry trimmed and with
its parentheses closed. Blanks at either end change no value: no reader of a rule takes up blanks at
the end of the text (`KeepsEnd`), so every rule rewrites what is in front of them and leaves
them (`toCanonical_gap`), and to the lexer they are nothing. Where the parentheses have to be closed
the entry as it stands has no value (`no_value_of_unclosed`). The main statement is
`submit_history_eq_preview`.
-/

namespace TexCalc

namespace Latex

theorem blank_unread {c : Char} (h : isBlank c = true) :
    isBrace c = false ∧ isBareChar c = false ∧ isWordChar c = false := by
  have hall : blanks.all (fun c => !isBrace c && !isBareChar c && !isWordChar c) = true := by
    decide +kernel
  have hc := List.all_eq_true.1 hall c (by simpa [isBlank] using h)
  simpa [and_assoc] using hc

theorem head_blank {p : Char → Bool} (hp : ∀ c, isBlank c = true → p c = false) {gap : Text}
    (blank : gap.isBlank = true) : gap.head?.any p = false := by
  cases gap with
  | nil => rfl
  | cons c gap => exact hp c (List.all_eq_true.1 blank c List.mem_cons_self)

/-- What ends in no blank in front of blanks at the end of a text stands in front of them. -/
theorem append_blank_eq {w t gap left : Text} (blank : gap.isBlank = true)
    (hw : ∀ c, w.getLast? = some c → isBlank c = false) (h : t ++ gap = w ++ left) :
    ∃ rest, t = w ++ rest ∧ left = rest ++ gap := by
  rcases List.append_eq_append_iff.1 h with ⟨beyond, rfl, rfl⟩ | ⟨rest, rfl, rfl⟩
  · rcases hbeyond : beyond.getLast? with _ | c
    · obtain rfl := List.getLast?_eq_none_iff.1 hbeyond
      exact ⟨[], by simp, by simp⟩
    · have hc := hw c (by simp [List.getLast?_append, hbeyond])
      have hmem : c ∈ beyond ++ left := List.mem_append_left _ (List.mem_of_getLast? hbeyond)
      rw [List.all_eq_true.1 blank c hmem] at hc
      cases hc
  · exact ⟨rest, rfl, rfl⟩

/-- What reads a beginning of a text does the same whatever blanks stand at its end, and leaves
them. -/
def KeepsEnd {α : Type} (read : Text → Option (α × Text)) : Prop :=
  ∀ t gap : Text, gap.isBlank = true →
    read (t ++ gap) = (read t).map fun r => (r.1, r.2 ++ gap)

namespace KeepsEnd

variable {α β : Type} {read : Text → Option (α × Text)}

theorem pure (a : α) : KeepsEnd fun t => some (a, t) :=
  fun _ _ _ => rfl

theorem bind {next : α → Text → Option (β × Text)} (h : KeepsEnd read)
    (hnext : ∀ a, KeepsEnd (next a)) : KeepsEnd fun t => read t >>= fun r => next r.1 r.2 := by
  intro t gap blank
  dsimp only
  rw [h t gap blank]
  rcases read t with _ | ⟨a, left⟩
  · rfl
  · exact hnext a left gap blank

theorem or {read' : Text → Option (α × Text)} (h : KeepsEnd read) (h' : KeepsEnd read') :
    KeepsEnd fun t => (read t).or (read' t) := by
  intro t gap blank
  dsimp only
  rw [h t gap blank, h' t gap blank]
  rcases read t with _ | r <;> rfl

theorem findSome? {γ : Type} {reads : γ → Text → Option (α × Text)} (h : ∀ x, KeepsEnd (reads x))
    (xs : List γ) : KeepsEnd fun t => xs.findSome? (reads · t) := by
  intro t gap blank
  induction xs with
  | nil => rfl
  | cons x xs ih =>
    simp only [List.findSome?_cons, h x t gap blank]
    rcases reads x t with _ | r
    · exact ih
    · rfl

/-- Blanks may be skipped first if nothing is read from nothing. -/
theorem skip (h : KeepsEnd read) (hnil : read [] = none) :
    KeepsEnd fun t => read (skipBlanks t) := by
  intro t gap blank
  dsimp only
  induction t with
  | nil =>
    have hgap : skipBlanks gap = [] := by
      have happend : skipBlanks (gap ++ []) = [] := skipBlanks_append blank rfl
      rwa [List.append_nil] at happend
    have hskip : skipBlanks [] = [] := rfl
    rw [List.nil_append, hgap, hskip, hnil]
    rfl
  | cons c t ih =>
    by_cases hc : isBlank c = true
    · simpa only [skipBlanks, List.cons_append, List.dropWhile_cons_of_pos hc] using ih
    · simp only [skipBlanks, List.cons_append, List.dropWhile_cons_of_neg hc]
      exact h (c :: t) gap blank

theorem word {w : Text} (hw : w.all (!isBlank ·) = true) {next : Text → Option (α × Text)}
    (hnext : KeepsEnd next) : KeepsEnd fun t => word? w t >>= next := by
  intro t gap blank
  dsimp only
  have hlast : ∀ c, w.getLast? = some c → isBlank c = false := fun c hc => by
    simpa using List.all_eq_true.1 hw c (List.mem_of_getLast? hc)
  rcases hword : word? w t with _ | rest
  · rcases hlong : word? w (t ++ gap) with _ | left
    · rfl
    obtain ⟨rest, rfl, -⟩ := append_blank_eq blank hlast (word?_eq_some hlong)
    rw [word?_append] at hword
    cases hword
  · rw [word?_eq_some hword, List.append_assoc, word?_append]
    exact hnext rest gap blank

theorem group : KeepsEnd group? := by
  intro t gap blank
  rcases hgroup : group? t with _ | ⟨inner, rest⟩
  · rcases hlong : group? (t ++ gap) with _ | ⟨inner, left⟩
    · rfl
    obtain ⟨hinner, heq⟩ := group?_eq_some_iff.1 hlong
    have hlast : ∀ c, ('{' :: inner ++ ['}']).getLast? = some c → isBlank c = false := by
      intro c hc
      rw [List.getLast?_concat] at hc
      cases hc
      rfl
    have hbraced : t ++ gap = '{' :: inner ++ ['}'] ++ left := by simpa using heq
    obtain ⟨rest, rfl, -⟩ := append_blank_eq blank hlast hbraced
    have hsome : group? ('{' :: inner ++ ['}'] ++ rest) = some (inner, rest) :=
      group?_eq_some_iff.2 ⟨hinner, by simp⟩
    rw [hsome] at hgroup
    cases hgroup
  · obtain ⟨hinner, rfl⟩ := group?_eq_some_iff.1 hgroup
    exact group?_eq_some_iff.2 ⟨hinner, by simp⟩

theorem bare : KeepsEnd bare? := by
  intro t gap blank
  have hgap := head_blank (fun c hc => (blank_unread hc).2.1) blank
  simp only [bare?, takeWhile_append_stop hgap, dropWhile_append_stop hgap]
  split <;> rfl

theorem argument : KeepsEnd argument? :=
  group.or bare

theorem fraction : KeepsEnd fraction.apply :=
  word rfl <| bind (skip group rfl) fun above => bind (skip group rfl) fun below =>
    pure ('(' :: above ++ ")/(".toList ++ below ++ [')'])

theorem root : KeepsEnd root.apply :=
  word rfl <| bind (skip group rfl) fun inner => pure ("sqrt(".toList ++ inner ++ [')'])

theorem callOf (f : Func) : KeepsEnd (callOf? f) :=
  word (by cases f <;> rfl) <| bind (skip argument rfl) fun inner =>
    pure (f.name ++ '(' :: inner ++ [')'])

theorem call : KeepsEnd call.apply :=
  findSome? callOf Func.all

theorem delimiter {name : Text} {paren : Char} (hname : name.all (!isBlank ·) = true)
    (hparen : [paren].all (!isBlank ·) = true) : KeepsEnd (delimiter name paren).apply :=
  word hname <| skip (word hparen (pure [paren])) rfl

theorem pi : KeepsEnd pi.apply := by
  refine word rfl fun t gap blank => ?_
  rw [head_append_stop (head_blank (fun c hc => (blank_unread hc).2.2) blank)]
  split <;> rfl

theorem command : KeepsEnd command.apply := by
  intro t gap blank
  have hgap := head_blank (fun c hc => (blank_classes hc).2.1) blank
  simp only [Latex.command, head_append_stop hgap, dropWhile_append_stop hgap]
  split <;> rfl

theorem of_mem_rules {rule : Rule} (h : rule ∈ rules) : KeepsEnd rule.apply := by
  simp only [rules, List.mem_cons, List.not_mem_nil, or_false] at h
  rcases h with rfl | rfl | rfl | rfl | rfl | rfl | rfl
  · exact fraction
  · exact root
  · exact call
  · exact delimiter rfl rfl
  · exact delimiter rfl rfl
  · exact pi
  · exact command

end KeepsEnd

section Gaps

variable {gap gap' : Text}

/-- A rule leaves blanks at either end of a text where they are. -/
theorem rewrite_gap {rule : Rule} (h : KeepsEnd rule.apply) (blank : gap.isBlank = true)
    (blank' : gap'.isBlank = true) (t : Text) :
    rule.rewrite (gap ++ t ++ gap') = gap ++ rule.rewrite t ++ gap' := by
  have hgap : rule.Turns gap gap := .plain fun c hc => (blank_plain blank c hc).1
  have hend : rule.rewrite gap' = gap' :=
    (Rule.Turns.plain fun c hc => (blank_plain blank' c hc).1).eq
  rw [List.append_assoc, hgap, List.append_assoc]
  congr 1
  fun_induction Rule.rewrite rule t with
  | case1 => exact hend
  | case2 rest new left happly ih =>
    have hlong : rule.apply (rest ++ gap') = some (new, left ++ gap') := by
      rw [h rest gap' blank', happly]
      rfl
    rw [List.cons_append, Rule.rewrite_some hlong, ih, List.append_assoc]
  | case3 rest happly ih =>
    have hlong : rule.apply (rest ++ gap') = none := by
      rw [h rest gap' blank', happly]
      rfl
    rw [List.cons_append, Rule.rewrite_none hlong, ih, List.cons_append]
  | case4 c rest hc ih => rw [List.cons_append, Rule.rewrite_cons hc, ih, List.cons_append]

theorem foldl_rewrite_gap (blank : gap.isBlank = true) (blank' : gap'.isBlank = true) :
    ∀ {rs : List Rule}, (∀ rule ∈ rs, KeepsEnd rule.apply) → ∀ t : Text,
      rs.foldl (fun t rule => rule.rewrite t) (gap ++ t ++ gap')
        = gap ++ rs.foldl (fun t rule => rule.rewrite t) t ++ gap'
  | [], _, _ => rfl
  | rule :: rs, h, t => by
    rw [List.foldl_cons, rewrite_gap (h rule List.mem_cons_self) blank blank',
      foldl_rewrite_gap blank blank' fun r hr => h r (List.mem_cons_of_mem rule hr)]
    rfl

/-- The preprocessing leaves blanks at either end of a text where they are. -/
theorem toCanonical_gap (blank : gap.isBlank = true) (blank' : gap'.isBlank = true) (t : Text) :
    toCanonical (gap ++ t ++ gap') = gap ++ toCanonical t ++ gap' :=
  foldl_rewrite_gap blank blank' (fun _ => KeepsEnd.of_mem_rules) t

end Gaps

end Latex

section Trimming

theorem exists_trim (t : Text) : ∃ gap gap' : Text, gap.isBlank = true ∧ gap'.isBlank = true
    ∧ t = gap ++ t.trim ++ gap' := by
  obtain ⟨gap, blank, ht⟩ := Latex.exists_gap t
  obtain ⟨gap', blank', hrest⟩ := Latex.exists_gap t.trimStart.reverse
  have hend : t.trimStart = t.trim ++ gap'.reverse := by
    rw [← List.reverse_reverse t.trimStart, hrest, List.reverse_append]
    rfl
  refine ⟨gap, gap'.reverse, blank, ?_, ?_⟩
  · simpa only [Text.isBlank, List.all_reverse] using blank'
  · rw [List.append_assoc, ← hend]
    exact ht

theorem surplus_trim (t : Text) : t.trim.surplus = t.surplus := by
  obtain ⟨gap, gap', blank, blank', ht⟩ := exists_trim t
  have hsurplus := congrArg Text.surplus ht
  rw [surplus_append, surplus_append, surplus_blank blank, surplus_blank blank'] at hsurplus
  omega

/-- Blanks at either end of a text change none of its values. -/
theorem evaluate_trim (mode : Mode) (t : Text) (x : Float) :
    (evaluate mode t.trim).map (·.value) = .ok x ↔ (evaluate mode t).map (·.value) = .ok x := by
  obtain ⟨gap, gap', blank, blank', ht⟩ := exists_trim t
  have hcanonical : mode.canonical t = gap ++ mode.canonical t.trim ++ gap' := by
    cases mode with
    | ascii => exact ht
    | latex =>
      exact (congrArg Latex.toCanonical ht).trans (Latex.toCanonical_gap blank blank' t.trim)
  have hread : ∀ ts, Token.ofText (mode.canonical t.trim) = .ok ts
      ↔ Token.ofText (mode.canonical t) = .ok ts := by
    intro ts
    rw [hcanonical]
    exact (reads_gap_iff blank blank').symm
  simp only [evaluate_eq_ok_iff, hread]

/-- Where a group is left open there is no value, in either mode. -/
theorem no_value_of_unclosed {mode : Mode} {t : Text} (h : t.count ')' < t.count '(') (x : Float) :
    (evaluate mode t).map (·.value) ≠ .ok x := by
  intro hx
  obtain ⟨ts, program, hts, hprogram, -⟩ := evaluate_eq_ok_iff.1 hx
  have hclosed := (Postfix.closed_of_ofInfix hprogram).whole
  have hsurplus := surplus_ofText hts
  rw [surplus_canonical, Text.surplus] at hsurplus
  omega

end Trimming

section Previewed

/-- A result is shown for a value, and a failure for none. -/
theorem answer_of_value {mode : Mode} {t : Text} {x : Float} (digits : Nat)
    (h : (evaluate mode t).map (·.value) = .ok x) :
    (answer mode digits t).1 = Display.result x digits := by
  rcases he : evaluate mode t with cause | evaluation <;> rw [he] at h <;> cases h
  rw [answer, he]

theorem answer_of_no_value {mode : Mode} {t : Text} (digits : Nat)
    (h : ∀ x, (evaluate mode t).map (·.value) ≠ .ok x) :
    (answer mode digits t).1 = failureText := by
  rcases he : evaluate mode t with cause | evaluation
  · rw [answer, he]
  · exact absurd (by rw [he]; rfl) (h evaluation.value)

theorem answer_congr {mode : Mode} {t u : Text} (digits : Nat)
    (h : ∀ x, (evaluate mode t).map (·.value) = .ok x ↔ (evaluate mode u).map (·.value) = .ok x) :
    (answer mode digits t).1 = (answer mode digits u).1 := by
  by_cases hvalue : ∃ x, (evaluate mode t).map (·.value) = .ok x
  · obtain ⟨x, hx⟩ := hvalue
    rw [answer_of_value digits hx, answer_of_value digits ((h x).1 hx)]
  · rw [not_exists] at hvalue
    have hvalue' := fun x hx => hvalue x ((h x).2 hx)
    rw [answer_of_no_value digits hvalue, answer_of_no_value digits hvalue']

end Previewed

namespace Session

theorem refresh_preview {s : Session} (h : s.entry.isBlank = false) :
    s.refresh.preview = (answer s.mode s.digits s.entry).1 := by
  rw [refresh, if_neg (by simp [h])]

theorem record_eq (s : Session) : s.record
    = ⟨closeParens s.entry.trim, (answer s.mode s.digits (closeParens s.entry.trim)).1⟩ := by
  rw [record, answer]
  rcases evaluate s.mode (closeParens s.entry.trim) with cause | evaluation <;> rfl

end Session

theorem closeParens_eq_self {t : Text} (h : t.surplus ≤ 0) : closeParens t = t := by
  have hnone : t.count '(' - t.count ')' = 0 := by
    rw [Text.surplus] at h
    omega
  rw [closeParens, hnone]
  exact List.append_nil t

/-- An entry that closes its parentheses is recorded with the result that is previewed for it, be it
a value or a failure, and an entry that does not is previewed as a failure. -/
theorem submit_history_eq_preview (s : Session) (h : s.entry.isBlank = false) :
    (s.entry.count '(' ≤ s.entry.count ')' →
        s.submit.history
            = (⟨closeParens s.entry.trim, s.refresh.preview⟩ :: s.history).take historyLimit
          ∧ ∀ x, (evaluate s.mode (closeParens s.entry.trim)).map (·.value) = .ok x
            ↔ (evaluate s.mode s.entry).map (·.value) = .ok x)
      ∧ (s.entry.count ')' < s.entry.count '(' → s.refresh.preview = failureText) := by
  rw [Session.refresh_preview h]
  refine ⟨fun hclosed => ?_, fun hopen => answer_of_no_value s.digits (no_value_of_unclosed hopen)⟩
  have hsurplus : s.entry.trim.surplus ≤ 0 := by
    rw [surplus_trim, Text.surplus]
    omega
  have hvalues := evaluate_trim s.mode s.entry
  rw [closeParens_eq_self hsurplus]
  refine ⟨?_, hvalues⟩
  rw [Session.submit_history, Session.record_eq, closeParens_eq_self hsurplus,
    answer_congr s.digits hvalues, h]
  rfl

/-- An ideographic space in front and an em space behind `\pi` are trimmed, and the result that is
recorded is the one that was previewed with them. A product with an open group fails at once. -/
theorem submit_history_of_spaced :
    Text.isBlank "\u3000\\left(3-1\\right)*\\pi\u2003".toList = false
      ∧ "\u3000\\left(3-1\\right)*\\pi\u2003".toList.count '('
        ≤ "\u3000\\left(3-1\\right)*\\pi\u2003".toList.count ')'
      ∧ (Session.submit { entry := "\u3000\\left(3-1\\right)*\\pi\u2003".toList }).history
        = [⟨"\\left(3-1\\right)*\\pi".toList, "6.2831853072".toList⟩]
      ∧ (Session.refresh { entry := "2*(3".toList }).preview = failureText := by
  have hentry : Text.isBlank "\u3000\\left(3-1\\right)*\\pi\u2003".toList = false := by decide
  have hcount : "\u3000\\left(3-1\\right)*\\pi\u2003".toList.count '('
      ≤ "\u3000\\left(3-1\\right)*\\pi\u2003".toList.count ')' := by decide
  have hopen := (submit_history_eq_preview { entry := "2*(3".toList } (by decide)).2 (by decide)
  refine ⟨hentry, hcount, ?_, hopen⟩
  have hhistory := ((submit_history_eq_preview
    { entry := "\u3000\\left(3-1\\right)*\\pi\u2003".toList } hentry).1 hcount).1
  rw [hhistory]
  decide +kernel

end TexCalc
