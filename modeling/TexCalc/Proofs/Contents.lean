import TexCalc.Proofs.Refusal

/-!
# Nothing is lost on the way to postfix order

Each token that is no parenthesis goes through the converter once: it is let go, or it waits and is
let go later. So the tokens of a program are those of the text in another order (`perm_ofInfix`).
Values never wait, and nothing that stands behind a value goes before it; with the positions of the
tokens written beside them, this is what `Arranges` says. The main statement is `ofInfix_conserves`.
-/

namespace TexCalc

namespace Token

def isParen (t : Token) : Bool :=
  t.kind == .openParen || t.kind == .closeParen

/-- Numbers and constants are values. -/
def isValue (t : Token) : Bool :=
  t.kind == .number

/-- The tokens that are no parentheses. -/
def withoutParens (ts : List Token) : List Token :=
  ts.filter (!·.isParen)

/-- The tokens that are no parentheses, each with its position. -/
def placed (ts : List Token) : List (Token × Nat) :=
  ts.zipIdx.filter (!·.1.isParen)

section WithoutParens

variable {t : Token} {ts : List Token}

theorem mem_withoutParens : t ∈ withoutParens ts ↔ t ∈ ts ∧ t.isParen = false := by
  simp [withoutParens]

theorem count_kind_withoutParens {kind : Kind} (hopen : kind ≠ .openParen)
    (hclose : kind ≠ .closeParen) :
    ((withoutParens ts).map Token.kind).count kind = (ts.map Token.kind).count kind := by
  simp only [withoutParens, List.count, List.countP_map, List.countP_filter]
  refine List.countP_congr fun t _ => ?_
  simp only [Function.comp_apply, isParen, Bool.and_eq_true, beq_iff_eq]
  refine ⟨And.left, fun h => ⟨h, ?_⟩⟩
  subst h
  simp [hopen, hclose]

theorem map_fst_placed (ts : List Token) : (placed ts).map Prod.fst = withoutParens ts := by
  have hfilter := List.filter_map (p := fun t : Token => !t.isParen) (f := Prod.fst)
    (l := ts.zipIdx)
  rw [List.zipIdx_map_fst] at hfilter
  exact hfilter.symm

end WithoutParens

end Token

namespace Postfix

open scoped List

open Token (isValue placed withoutParens)

variable {pending left : List Pending} {ts out program : List Token}

/-- The first of two placed tokens may go before the second one: if that is a value, it stands
behind the first. -/
def Ordered (a b : Token × Nat) : Prop :=
  b.1.isValue = true → a.2 < b.2

/-- `Arranges ts program`: the program has each token of `ts` that is no parenthesis once, and
whatever stands in front of a value in it stands in front of that in `ts` too. So the values keep
their order, and an operator or a function comes behind all values that it stands behind. -/
def Arranges (ts program : List Token) : Prop :=
  ∃ order : List (Token × Nat), order.map Prod.fst = program ∧ order.Perm (placed ts)
    ∧ order.Pairwise Ordered

section Distribution

variable {all gone staying waiting : List (Token × Nat)}

/-- `Distributes all gone staying`: of the tokens `all` the ones have gone, in this order, the
others stay, and what is neither is a parenthesis. -/
structure Distributes (all gone staying : List (Token × Nat)) : Prop where
  whole : ∃ dropped, (∀ a ∈ dropped, a.1.isParen = true) ∧ gone ++ staying ++ dropped ~ all
  noParen : ∀ a ∈ gone, a.1.isParen = false
  ordered : gone.Pairwise Ordered

theorem Distributes.mem (h : Distributes all gone staying) {a : Token × Nat}
    (ha : a ∈ gone ∨ a ∈ staying) : a ∈ all := by
  obtain ⟨dropped, -, hperm⟩ := h.whole
  refine hperm.mem_iff.1 ?_
  simpa [or_assoc] using Or.inl ha

theorem pairwise_of_noValue (h : ∀ a ∈ all, a.1.isValue = false) : all.Pairwise Ordered := by
  refine List.pairwise_iff_getElem.2 fun i j _ hj _ hvalue => ?_
  rw [h _ (List.getElem_mem hj)] at hvalue
  cases hvalue

theorem noValue_of_waiting (h : waiting.map Prod.fst = pending.map Pending.token) :
    ∀ a ∈ waiting, a.1.isValue = false := by
  intro a ha
  have hmem := List.mem_map_of_mem (f := Prod.fst) ha
  rw [h] at hmem
  obtain ⟨w, -, hw⟩ := List.mem_map.1 hmem
  rw [← hw]
  cases w <;> rfl

theorem noParen_of_waiting {gone : List Pending} (h : waiting.map Prod.fst = gone.map Pending.token)
    (hgroup : .group ∉ gone) : ∀ a ∈ waiting, a.1.isParen = false := by
  intro a ha
  have hmem := List.mem_map_of_mem (f := Prod.fst) ha
  rw [h] at hmem
  obtain ⟨w, hw, hwa⟩ := List.mem_map.1 hmem
  rw [← hwa]
  cases w with
  | operator op => rfl
  | function f => rfl
  | group => exact absurd hw hgroup

theorem distributes_step {t : Token} (h : step pending t = .ok (out, left))
    (hwaiting : waiting.map Prod.fst = pending.map Pending.token) (position : Nat) :
    ∃ gone staying, gone.map Prod.fst = out ∧ staying.map Prod.fst = left.map Pending.token
      ∧ Distributes (waiting ++ [(t, position)]) gone staying := by
  have hvalue := noValue_of_waiting hwaiting
  cases effect_of_step h with
  | pass value =>
    refine ⟨[(t, position)], waiting, rfl, hwaiting, ⟨[], by simp, ?_⟩, ?_,
      List.pairwise_singleton ..⟩
    · simpa using (List.perm_append_singleton (t, position) waiting).symm
    · have hparen : t.isParen = false := by cases t <;> cases value <;> rfl
      simpa using hparen
  | @wait lower below w noGroup _ =>
    rw [List.map_append] at hwaiting
    obtain ⟨gone, staying, rfl, hgone, hstaying⟩ := List.map_eq_append_iff.1 hwaiting
    refine ⟨gone, (w.token, position) :: staying, hgone, ?_, ⟨[], by simp, ?_⟩,
      noParen_of_waiting hgone noGroup, ?_⟩
    · rw [List.map_cons, List.map_cons, hstaying]
    · have hlast := (List.perm_append_singleton (w.token, position) staying).symm
      simpa using hlast.append_left gone
    · exact pairwise_of_noValue fun a ha => hvalue a (List.mem_append_left _ ha)
  | @close inner outer _ innermost noGroup =>
    rw [List.map_append, List.map_cons, List.map_append] at hwaiting
    obtain ⟨gone, rest, rfl, hgone, hrest⟩ := List.map_eq_append_iff.1 hwaiting
    obtain ⟨opening, rest, rfl, hopening, hrest⟩ := List.map_eq_cons_iff.1 hrest
    obtain ⟨call, staying, rfl, hcall, hstaying⟩ := List.map_eq_append_iff.1 hrest
    -- the two parentheses are dropped, and nothing else
    refine ⟨gone ++ call, staying, by rw [List.map_append, List.map_append, hgone, hcall], hstaying,
      ⟨[opening, (.closeParen, position)], ?_, ?_⟩, ?_, ?_⟩
    · simp [hopening, Pending.token, Token.isParen, Token.kind]
    · have hmiddle : call ++ staying ++ opening :: [(.closeParen, position)]
          ~ opening :: (call ++ staying ++ [(.closeParen, position)]) := List.perm_middle
      simpa using hmiddle.append_left gone
    · intro a ha
      rcases List.mem_append.1 ha with ha | ha
      · exact noParen_of_waiting hgone innermost a ha
      · exact noParen_of_waiting hcall noGroup a ha
    · refine pairwise_of_noValue fun a ha => hvalue a ?_
      rcases List.mem_append.1 ha with ha | ha
      · exact List.mem_append_left _ ha
      · exact List.mem_append_right _ (List.mem_cons_of_mem _ (List.mem_append_left _ ha))

/-- What a run lets go and what it leaves waiting is what waited before and what it read. -/
theorem distributes_run {ts : List Token} : ∀ (waiting : List (Token × Nat)) (position : Nat)
    {pending left : List Pending} {out : List Token}, run pending ts = .ok (out, left) →
    waiting.map Prod.fst = pending.map Pending.token → (∀ a ∈ waiting, a.2 < position) →
    ∃ gone staying, gone.map Prod.fst = out ∧ staying.map Prod.fst = left.map Pending.token
      ∧ Distributes (waiting ++ ts.zipIdx position) gone staying := by
  induction ts with
  | nil =>
    intro waiting position pending left out h hwaiting _
    cases h
    exact ⟨[], waiting, rfl, hwaiting, ⟨[], by simp, by simp⟩, by simp, .nil⟩
  | cons t ts ih =>
    intro waiting position pending left out h hwaiting hbefore
    obtain ⟨first, next, further, hs, hr, rfl⟩ := run_cons_eq_ok_iff.1 h
    obtain ⟨gone, staying, rfl, hstaying, hstep⟩ := distributes_step hs hwaiting position
    have hsofar : ∀ a, a ∈ gone ∨ a ∈ staying → a.2 < position + 1 := by
      intro a ha
      rcases List.mem_append.1 (hstep.mem ha) with hmem | hmem
      · exact Nat.lt_succ_of_lt (hbefore a hmem)
      · rw [List.mem_singleton.1 hmem]
        exact Nat.lt_succ_self position
    obtain ⟨later, last, rfl, hlast, hrest⟩ :=
      ih staying (position + 1) hr hstaying fun a ha => hsofar a (.inr ha)
    obtain ⟨dropped, hdropped, hperm⟩ := hstep.whole
    obtain ⟨dropped', hdropped', hperm'⟩ := hrest.whole
    refine ⟨gone ++ later, last, by rw [List.map_append], hlast,
      ⟨dropped' ++ dropped, ?_, ?_⟩, ?_, ?_⟩
    · intro a ha
      exact (List.mem_append.1 ha).elim (hdropped' a) (hdropped a)
    · calc gone ++ later ++ last ++ (dropped' ++ dropped)
          = gone ++ (later ++ last ++ dropped' ++ dropped) := by simp
        _ ~ gone ++ (staying ++ ts.zipIdx (position + 1) ++ dropped) :=
          (hperm'.append_right dropped).append_left gone
        _ ~ gone ++ staying ++ dropped ++ ts.zipIdx (position + 1) := by
          simpa using (List.perm_append_comm.append_left staying).append_left gone
        _ ~ waiting ++ [(t, position)] ++ ts.zipIdx (position + 1) := hperm.append_right _
        _ = waiting ++ (t :: ts).zipIdx position := by simp
    · intro a ha
      exact (List.mem_append.1 ha).elim (hstep.noParen a) (hrest.noParen a)
    · refine List.pairwise_append.2 ⟨hstep.ordered, hrest.ordered, fun a ha b hb hvalue => ?_⟩
      -- a value that goes later has been read later, for it has not waited
      rcases List.mem_append.1 (hrest.mem (.inl hb)) with hmem | hmem
      · rw [noValue_of_waiting hstaying b hmem] at hvalue
        cases hvalue
      · exact Nat.lt_of_lt_of_le (hsofar a (.inl ha)) (List.le_snd_of_mem_zipIdx hmem)

end Distribution

theorem arranges_ofInfix (h : ofInfix ts = .ok program) : Arranges ts program := by
  obtain ⟨out, left, hr, hgroup, rfl⟩ := ofInfix_eq_ok_iff.1 h
  obtain ⟨gone, staying, rfl, hstaying, hrest⟩ := distributes_run [] 0 hr rfl (by simp)
  have hvalue := noValue_of_waiting hstaying
  have hparen : ∀ a ∈ gone ++ staying, a.1.isParen = false := by
    intro a ha
    rcases List.mem_append.1 ha with ha | ha
    · exact hrest.noParen a ha
    · have hmem := List.mem_map_of_mem (f := Prod.fst) ha
      rw [hstaying] at hmem
      obtain ⟨w, hw, heq⟩ := List.mem_map.1 hmem
      rw [← heq]
      cases w with
      | operator op => rfl
      | function f => rfl
      | group => exact absurd hw hgroup
  obtain ⟨dropped, hdropped, hperm⟩ := hrest.whole
  refine ⟨gone ++ staying, by rw [List.map_append, hstaying], ?_, ?_⟩
  · have hfilter := hperm.filter (!·.1.isParen)
    rwa [List.filter_append, List.filter_eq_self.2 (by simpa using hparen),
      List.filter_eq_nil_iff.2 (by simpa using hdropped), List.append_nil] at hfilter
  · refine List.pairwise_append.2
      ⟨hrest.ordered, pairwise_of_noValue hvalue, fun a _ b hb hv => ?_⟩
    rw [hvalue b hb] at hv
    cases hv

theorem Arranges.perm (h : Arranges ts program) : program ~ withoutParens ts := by
  obtain ⟨order, rfl, hperm, -⟩ := h
  rw [← Token.map_fst_placed]
  exact hperm.map Prod.fst

theorem Arranges.values (h : Arranges ts program) :
    program.filter isValue = ts.filter isValue := by
  obtain ⟨order, rfl, hperm, hordered⟩ := h
  have hplaced : ((placed ts).filter (·.1.isValue)).Pairwise fun a b => a.2 < b.2 := by
    have hzip : ts.zipIdx.Pairwise fun a b => a.2 < b.2 := by
      rw [← List.pairwise_map, List.zipIdx_map_snd]
      exact List.pairwise_lt_range'
    exact (hzip.filter _).filter _
  have horder : (order.filter (·.1.isValue)).Pairwise fun a b => a.2 < b.2 :=
    (hordered.filter _).imp_of_mem fun _ hb h => h (List.mem_filter.1 hb).2
  have heq := (hperm.filter _).eq_of_pairwise
    (fun a b _ _ hab hba => absurd hab (Nat.lt_asymm hba)) horder hplaced
  have hmap : ∀ l : List (Token × Nat),
      (l.map Prod.fst).filter isValue = (l.filter (·.1.isValue)).map Prod.fst := fun l =>
    List.filter_map
  rw [hmap, heq, ← hmap, Token.map_fst_placed, withoutParens, List.filter_filter]
  refine List.filter_congr fun t _ => ?_
  cases t <;> rfl

theorem perm_ofInfix (h : ofInfix ts = .ok program) : withoutParens program ~ withoutParens ts := by
  have hfilter := (arranges_ofInfix h).perm.filter (!·.isParen)
  simp only [withoutParens, List.filter_filter, Bool.and_self] at hfilter
  exact hfilter

theorem mem_ofInfix (h : ofInfix ts = .ok program) {t : Token} (ht : t ∈ program) :
    t.isParen = false ∧ ∀ name, t ≠ .unknown name := by
  obtain ⟨hmem, hparen⟩ := Token.mem_withoutParens.1 ((arranges_ofInfix h).perm.mem_iff.1 ht)
  refine ⟨hparen, ?_⟩
  rintro name rfl
  exact known_of_ofInfix h name hmem

end Postfix

section Misplaced

theorem Machine.exists_misplaced {program : List Token} {token : Text}
    (h : value program = .error (.misplacedToken token)) :
    ∃ t ∈ program, t.isParen = true ∨ ∃ name, t = .unknown name := by
  rcases error_of_value h with ⟨left, hcause⟩ | ⟨front, t, back, es, stack, rfl, -, hrefuses⟩
  · cases hcause
  · refine ⟨t, by simp, ?_⟩
    cases hrefuses with
    | unknown name => exact .inr ⟨_, rfl⟩
    | openParen => exact .inl rfl
    | closeParen => exact .inl rfl

theorem evaluate_ne_misplacedToken (mode : Mode) (t token : Text) :
    evaluate mode t ≠ .error (.misplacedToken token) := by
  intro h
  rcases stage_of_evaluate_error h with hscan | ⟨ts, -, horder | ⟨program, horder, hvalue⟩⟩
  · rcases scan_error true 0 _ hscan with ⟨_, _, hcause⟩ | ⟨_, _, hcause⟩ <;> cases hcause
  · rcases Postfix.ofInfix_eq_error_iff.1 horder with hrun | ⟨_, _, -, -, hcause⟩
    · rcases Postfix.run_error hrun with hcause | ⟨name, hcause⟩ <;> cases hcause
    · cases hcause
  · obtain ⟨t, ht, hparen | ⟨name, rfl⟩⟩ := Machine.exists_misplaced hvalue
    · rw [(Postfix.mem_ofInfix horder ht).1] at hparen
      cases hparen
    · exact (Postfix.mem_ofInfix horder ht).2 name rfl

/-- No other sentence opens as that on a misplaced token. -/
theorem misplacedToken_of_message {cause : Failure}
    (h : "erreur de syntaxe: jeton inattendu en RPN: ".toList <+: cause.message) :
    ∃ token, cause = .misplacedToken token := by
  obtain ⟨u, hu⟩ := h
  have hchar : ∀ n, (("erreur de syntaxe: jeton inattendu en RPN: ".toList ++ u).drop n).head?
      = (cause.message.drop n).head? := fun n => by rw [hu]
  cases cause with
  | misplacedToken token => exact ⟨token, rfl⟩
  | unclosedGroup => cases (show some 'j' = some 'p' from hchar 19)
  | unmatchedClose => cases (show some 'j' = some 'p' from hchar 19)
  | unknownName name => cases (show some 'j' = some 'i' from hchar 19)
  | unexpectedChar c position => cases (show some 'e' = some 'c' from hchar 0)
  | malformedNumber lexeme position => cases (show some 'e' = some 'n' from hchar 0)
  | missingOperand op => cases (show some 'e' = some 'o' from hchar 0)
  | missingArgument f => cases (show some 'e' = some 'o' from hchar 0)
  | negativeRoot x => cases (show some 'e' = some 'h' from hchar 0)
  | divisionByZero => cases (show some 'e' = some 'd' from hchar 0)
  | unbalancedStack left => cases (show some 'r' = some 'x' from hchar 1)

/-- The program of tokens in any order is all of them but the parentheses: the values in their
order, and each operator and function behind the values that it stands behind. So the machine never
meets a token that has no place in a program, and no text is refused for one. -/
theorem ofInfix_conserves :
    (∀ ts program, Postfix.ofInfix ts = .ok program →
        program.Perm (Token.withoutParens ts)
          ∧ program.filter Token.isValue = ts.filter Token.isValue
          ∧ Postfix.Arranges ts program
          ∧ ∀ t ∈ program, t.isParen = false ∧ ∀ name, t ≠ .unknown name)
      ∧ ∀ mode t cause, evaluate mode t = .error cause →
        (∀ token, cause ≠ .misplacedToken token)
          ∧ ¬"erreur de syntaxe: jeton inattendu en RPN: ".toList <+: cause.message := by
  refine ⟨fun ts program h => ?_, fun mode t cause h => ?_⟩
  · have harranges := Postfix.arranges_ofInfix h
    exact ⟨harranges.perm, harranges.values, harranges, fun _ => Postfix.mem_ofInfix h⟩
  · have hcause : ∀ token, cause ≠ .misplacedToken token := by
      rintro token rfl
      exact evaluate_ne_misplacedToken mode t token h
    refine ⟨hcause, fun hmessage => ?_⟩
    obtain ⟨token, rfl⟩ := misplacedToken_of_message hmessage
    exact hcause token rfl

/-- In `abs 2 (3 +) * pi /` the group closes the call although `2` stands between them. The quotient
has one operand, and that is what the text is refused for. -/
theorem ofInfix_conserves_misplaced :
    Postfix.ofInfix [.function .abs, .number 2, .openParen, .number 3, .operator .plus, .closeParen,
        .operator .times, .constant .pi, .operator .divide]
        = .ok [.number 2, .number 3, .operator .plus, .function .abs, .constant .pi,
          .operator .times, .operator .divide]
      ∧ Postfix.Arranges
        [.function .abs, .number 2, .openParen, .number 3, .operator .plus, .closeParen,
          .operator .times, .constant .pi, .operator .divide]
        [.number 2, .number 3, .operator .plus, .function .abs, .constant .pi, .operator .times,
          .operator .divide]
      ∧ evaluate .ascii "abs 2 (3 +) * pi /".toList = .error (.missingOperand .divide)
      ∧ ¬"erreur de syntaxe: jeton inattendu en RPN: ".toList
        <+: (Failure.missingOperand .divide).message := by
  have hcause : evaluate .ascii "abs 2 (3 +) * pi /".toList = .error (.missingOperand .divide) := by
    decide +kernel
  exact ⟨rfl, (ofInfix_conserves.1 _ _ rfl).2.2.1, hcause, (ofInfix_conserves.2 _ _ _ hcause).2⟩

end Misplaced

end TexCalc
