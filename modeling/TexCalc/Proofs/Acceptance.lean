import TexCalc.Proofs.Contents
import TexCalc.Proofs.Derivation

/-!
# Which texts are accepted

The converter keeps no account of where an operand stood, and the stack machine only counts what it
has. So a text has a value where its tokens are put into the postorder of an expression, whether they
stand in the order of infix notation or not, and `2 3 +` has one. Which programs are postorders is a
matter of counting (`exists_postorder_iff`). Tokens with such a program have as many operands too
many as are missing (`balanced_of_ofInfix`), but that is not enough: `(2+) 3` is refused. The main
statement is `evaluate_accepts_iff`.
-/

namespace TexCalc

section Counts

/-- Every beginning of the program has more values than operators, and the program has one more. -/
structure Supplied (program : List Token) : Prop where
  inside : ∀ front, front <+: program → front ≠ [] →
    (front.map Token.kind).count .operator < (front.map Token.kind).count .number
  whole : (program.map Token.kind).count .number = (program.map Token.kind).count .operator + 1

variable {ts program : List Token}

theorem Expr.lt_count_of_prefix (e : Expr) : ∀ {front : List Token}, front <+: e.postorder →
    front ≠ [] → (front.map Token.kind).count .operator < (front.map Token.kind).count .number := by
  have whole : ∀ e : Expr, (e.postorder.map Token.kind).count .operator
      < (e.postorder.map Token.kind).count .number := fun e => by
    rw [e.count_postorder]
    exact Nat.lt_succ_self _
  induction e with
  | number x =>
    intro front hfront hne
    obtain rfl := hfront.eq_of_length_le (List.length_pos_iff.2 hne)
    exact whole (.number x)
  | constant k =>
    intro front hfront hne
    obtain rfl := hfront.eq_of_length_le (List.length_pos_iff.2 hne)
    exact whole (.constant k)
  | operation op left right ihl ihr =>
    intro front hfront hne
    rw [postorder, List.prefix_concat_iff] at hfront
    rcases hfront with rfl | hfront
    · exact whole (.operation op left right)
    rcases List.prefix_or_prefix_of_prefix hfront (List.prefix_append _ _) with hleft | ⟨us, rfl⟩
    · exact ihl hleft hne
    · -- all of the left operand is one value ahead, and no beginning of the right one falls behind
      have hleft := left.count_postorder
      rw [List.prefix_append_right_inj] at hfront
      simp only [List.map_append, List.count_append]
      rcases List.eq_nil_or_concat' us with rfl | ⟨us, t, rfl⟩
      · simp only [List.map_nil, List.count_nil]
        omega
      · have hright := ihr hfront (by simp)
        omega
  | call f argument ih =>
    intro front hfront hne
    rw [postorder, List.prefix_concat_iff] at hfront
    rcases hfront with rfl | hfront
    · exact whole (.call f argument)
    · exact ih hfront hne

theorem exists_exprs_of_supplied
    (hknown : ∀ t ∈ program, t.isParen = false ∧ ∀ name, t ≠ .unknown name)
    (h : ∀ front, front <+: program → front ≠ [] →
      (front.map Token.kind).count .operator < (front.map Token.kind).count .number) :
    ∃ es : List Expr, program = es.flatMap Expr.postorder := by
  induction program using List.reverseRecOn with
  | nil => exact ⟨[], rfl⟩
  | append_singleton program t ih =>
    obtain ⟨es, rfl⟩ := ih (fun u hu => hknown u (List.mem_append_left _ hu))
      fun front hfront => h front (hfront.trans (List.prefix_append _ _))
    have hcount := Expr.count_flatMap_postorder es
    have hwhole := h _ (List.prefix_refl _) (by simp)
    simp only [List.map_append, List.count_append] at hwhole
    cases t with
    | number x => exact ⟨es ++ [.number x], by simp [Expr.postorder]⟩
    | constant k => exact ⟨es ++ [.constant k], by simp [Expr.postorder]⟩
    | operator op =>
      have hnumber : ([Token.operator op].map Token.kind).count .number = 0 := rfl
      have hoperator : ([Token.operator op].map Token.kind).count .operator = 1 := rfl
      rcases List.eq_nil_or_concat' es with rfl | ⟨es, right, rfl⟩
      · rw [List.length_nil] at hcount
        omega
      rcases List.eq_nil_or_concat' es with rfl | ⟨es, left, rfl⟩
      · rw [List.nil_append, List.length_singleton] at hcount
        rw [List.nil_append] at hwhole
        omega
      exact ⟨es ++ [.operation op left right], by simp [Expr.postorder]⟩
    | function f =>
      have hnumber : ([Token.function f].map Token.kind).count .number = 0 := rfl
      rcases List.eq_nil_or_concat' es with rfl | ⟨es, argument, rfl⟩
      · rw [List.length_nil] at hcount
        omega
      exact ⟨es ++ [.call f argument], by simp [Expr.postorder]⟩
    | unknown name => exact absurd rfl ((hknown _ (by simp)).2 name)
    | openParen | closeParen => cases (hknown _ (List.mem_append_right _ List.mem_cons_self)).1

theorem exists_postorder_iff
    (hknown : ∀ t ∈ program, t.isParen = false ∧ ∀ name, t ≠ .unknown name) :
    (∃ e, program = Expr.postorder e) ↔ Supplied program := by
  constructor
  · rintro ⟨e, rfl⟩
    exact ⟨fun _ => e.lt_count_of_prefix, e.count_postorder⟩
  · rintro ⟨inside, whole⟩
    obtain ⟨es, rfl⟩ := exists_exprs_of_supplied hknown inside
    rw [Expr.count_flatMap_postorder] at whole
    obtain ⟨e, rfl⟩ := List.length_eq_one_iff.1 (Nat.add_left_cancel whole)
    exact ⟨e, by simp⟩

/-- Values and operators tell how many more operands are missing than there are too many. -/
theorem count_misplaced (completed : Bool) (ts : List Token) :
    (ts.map Token.kind).count .number + (ts.map Token.kind).count .unknown + completed.toNat
        + missingOperands completed ts
      = (ts.map Token.kind).count .operator + 1 + extraOperands completed ts := by
  induction ts generalizing completed with
  | nil => cases completed <;> rfl
  | cons t ts ih =>
    have hrest := ih t.completesOperand
    cases t <;> cases completed <;>
      simp [Token.kind, Token.beginsOperand, Token.completesOperand, extraOperands,
        missingOperands] at hrest ⊢ <;> omega

theorem balanced_of_ofInfix {e : Expr} (h : Postfix.ofInfix ts = .ok e.postorder) :
    extraOperands false ts = missingOperands false ts := by
  have hperm := (Postfix.perm_ofInfix h).map Token.kind
  have hkind : ∀ kind : Token.Kind, kind ≠ .openParen → kind ≠ .closeParen →
      (ts.map Token.kind).count kind = (e.postorder.map Token.kind).count kind := by
    intro kind hopen hclose
    rw [← Token.count_kind_withoutParens hopen hclose, ← hperm.count_eq,
      Token.count_kind_withoutParens hopen hclose]
  have hnumber := hkind .number (by decide) (by decide)
  have hoperator := hkind .operator (by decide) (by decide)
  have hunknown : (ts.map Token.kind).count .unknown = 0 := by
    refine List.count_eq_zero.2 fun hmem => ?_
    obtain ⟨t, ht, hkind⟩ := List.mem_map.1 hmem
    cases t <;> cases hkind
    exact Postfix.known_of_ofInfix h _ ht
  have hmisplaced := count_misplaced false ts
  have hpostorder := e.count_postorder
  simp only [Bool.toNat_false] at hmisplaced
  omega

end Counts

section Acceptance

variable {ts program : List Token} {cause : Failure}

theorem family_of_ofInfix (h : Postfix.ofInfix ts = .error cause) : cause.family = .syntactic := by
  rcases Postfix.ofInfix_eq_error_iff.1 h with hrun | ⟨_, _, _, _, rfl⟩
  · rcases Postfix.run_error hrun with rfl | ⟨name, rfl⟩ <;> rfl
  · rfl

/-- The program of the tokens comes to an expression that fails, behind others that have values. -/
def FailsWithin (ts : List Token) (cause : Failure) : Prop :=
  ∃ (front back : List Token) (e : Expr) (es : List Expr) (xs : List Float),
    Postfix.ofInfix ts = .ok (front ++ e.postorder ++ back) ∧ Machine.Lists front es xs
      ∧ e.Yields (.error cause)

/-- How tokens fail: in their order, in their number, by a name, or in an arithmetic that they ask
for. -/
def TokensFail (ts : List Token) (cause : Failure) : Prop :=
  cause.family ∈ [.syntactic, .arity, .structural]
    ∨ (cause = .divisionByZero ∧ .operator .divide ∈ ts
      ∨ cause.family = .domain ∧ .function .sqrt ∈ ts) ∧ FailsWithin ts cause

theorem tokensFail_of_value (h : Postfix.ofInfix ts = .ok program)
    (hvalue : Machine.value program = .error cause) : TokensFail ts cause := by
  have hmem : ∀ t ∈ program, t.isParen = false → t ∈ ts := fun t ht hparen =>
    have hwithout := (Postfix.perm_ofInfix h).mem_iff.1 (Token.mem_withoutParens.2 ⟨ht, hparen⟩)
    (Token.mem_withoutParens.1 hwithout).1
  rcases Machine.error_of_value hvalue with
    ⟨left, rfl⟩ | ⟨front, t, back, es, stack, rfl, ⟨rfl, hvalues⟩, hrefuses⟩
  · exact .inl (by simp [Failure.family])
  rw [List.forall₂_reverse_iff] at hvalues
  cases hrefuses with
  | unknown | openParen | closeParen | missingOperand | missingArgument =>
    exact .inl (by simp [Failure.family])
  | @zeroDivisor x y below zero =>
    refine .inr ⟨.inl ⟨rfl, hmem _ (by simp) rfl⟩, ?_⟩
    rcases hvalues with _ | @⟨right, _, _, _, hr, _ | @⟨left, _, es, _, hl, hv⟩⟩
    refine ⟨es.reverse.flatMap Expr.postorder, back, .operation .divide left right, es.reverse,
      below.reverse, ?_, ⟨rfl, List.forall₂_reverse_iff.2 hv⟩, .zeroDivisor hl hr zero⟩
    rw [h]
    simp [Expr.postorder]
  | @negativeRoot x below negative =>
    refine .inr ⟨.inr ⟨rfl, hmem _ (by simp) rfl⟩, ?_⟩
    rcases hvalues with _ | @⟨argument, _, es, _, ha, hv⟩
    refine ⟨es.reverse.flatMap Expr.postorder, back, .call .sqrt argument, es.reverse,
      below.reverse, ?_, ⟨rfl, List.forall₂_reverse_iff.2 hv⟩, .negativeRoot ha negative⟩
    rw [h]
    simp [Expr.postorder]

theorem tokensFail_of_evaluate {t : Text} (hts : Token.ofText t = .ok ts)
    (h : evaluate .ascii t = .error cause) : TokensFail ts cause := by
  rcases stage_of_evaluate_error h with hscan | ⟨us, hus, horder | ⟨program, horder, hvalue⟩⟩
  · cases hts.symm.trans hscan
  · cases hts.symm.trans hus
    exact .inl (by simp [family_of_ofInfix horder])
  · cases hts.symm.trans hus
    exact tokensFail_of_value horder hvalue

theorem writes_iff_none_misplaced {e : Expr} (h : Postfix.ofInfix ts = .ok e.postorder) :
    (∃ trailing, Writes true trailing .sum ts e) ↔ extraOperands false ts = 0 := by
  have hbalance := balanced_of_ofInfix h
  constructor
  · rintro ⟨trailing, hwrites⟩
    exact (writes_iff.1 ⟨trailing, e, hwrites⟩).2.2.1
  · intro hextra
    obtain ⟨trailing, e', hwrites⟩ := writes_iff.2
      ⟨Postfix.closed_of_ofInfix h, Postfix.known_of_ofInfix h, hextra, hbalance ▸ hextra⟩
    have hpostorder := Except.ok.inj (hwrites.ofInfix_eq.symm.trans h)
    exact ⟨trailing, Expr.postorder_injective hpostorder ▸ hwrites⟩

theorem exists_ofInfix_postorder_iff : (∃ e, Postfix.ofInfix ts = .ok (Expr.postorder e))
    ↔ ∃ program, Postfix.ofInfix ts = .ok program ∧ Supplied program := by
  constructor
  · rintro ⟨e, h⟩
    have hsupplied := (exists_postorder_iff fun _ => Postfix.mem_ofInfix h).1 ⟨e, rfl⟩
    exact ⟨_, h, hsupplied⟩
  · rintro ⟨program, h, hsupplied⟩
    obtain ⟨e, rfl⟩ := (exists_postorder_iff fun _ => Postfix.mem_ofInfix h).2 hsupplied
    exact ⟨e, h⟩

theorem evaluate_eq_ok_iff_postorder {t : Text} {x : Float} :
    (evaluate .ascii t).map (·.value) = .ok x ↔ ∃ ts e, Token.ofText t = .ok ts
      ∧ Postfix.ofInfix ts = .ok (Expr.postorder e) ∧ e.Yields (.ok x) := by
  constructor
  · intro hx
    obtain ⟨ts, e, hts, hprogram, he⟩ := exists_expr_of_value hx
    exact ⟨ts, e, hts, hprogram, Expr.yields_iff.2 he⟩
  · rintro ⟨ts, e, hts, hprogram, he⟩
    rw [evaluate_of_reads hts hprogram]
    exact Expr.yields_iff.1 he

/-- A text has a value exactly if its tokens are put into the postorder of an expression with that
value, and whenever they are put into a postorder it has the outcome of the expression. Of these
tokens the ones in which no operand is misplaced write the expression. All other tokens are refused,
for their order or their number or, if that fails first, in a division by zero or a root. -/
theorem evaluate_accepts_iff (t : Text) :
    (∀ x, (evaluate .ascii t).map (·.value) = .ok x ↔ ∃ ts e, Token.ofText t = .ok ts
        ∧ Postfix.ofInfix ts = .ok (Expr.postorder e) ∧ e.Yields (.ok x))
      ∧ ∀ ts, Token.ofText t = .ok ts →
        ((∃ e, Postfix.ofInfix ts = .ok (Expr.postorder e))
          ↔ ∃ program, Postfix.ofInfix ts = .ok program ∧ Supplied program)
        ∧ (∀ e, Postfix.ofInfix ts = .ok (Expr.postorder e) →
          e.Yields ((evaluate .ascii t).map (·.value))
          ∧ Postfix.Closed ts ∧ (∀ name, .unknown name ∉ ts)
          ∧ extraOperands false ts = missingOperands false ts
          ∧ ((∃ trailing, Writes true trailing .sum ts e) ↔ extraOperands false ts = 0))
        ∧ (∀ trailing e, Writes true trailing .sum ts e →
          Postfix.ofInfix ts = .ok (Expr.postorder e))
        ∧ ((∃ trailing e, Writes true trailing .sum ts e) ↔ Postfix.Closed ts
          ∧ (∀ name, .unknown name ∉ ts) ∧ extraOperands false ts = 0
          ∧ missingOperands false ts = 0)
        ∧ ((¬∃ e, Postfix.ofInfix ts = .ok (Expr.postorder e)) →
          ∃ cause, evaluate .ascii t = .error cause)
        ∧ ∀ cause, evaluate .ascii t = .error cause → TokensFail ts cause := by
  refine ⟨fun x => evaluate_eq_ok_iff_postorder, fun ts hts => ⟨exists_ofInfix_postorder_iff,
    fun e h => ?_, fun trailing e h => h.ofInfix_eq, writes_iff, fun hnone => ?_, fun cause => ?_⟩⟩
  · rw [evaluate_of_reads hts h]
    exact ⟨e.yields_eval, Postfix.closed_of_ofInfix h, Postfix.known_of_ofInfix h,
      balanced_of_ofInfix h, writes_iff_none_misplaced h⟩
  · rcases hevaluate : evaluate .ascii t with cause | evaluation
    · exact ⟨cause, rfl⟩
    · have hvalue : (evaluate .ascii t).map (·.value) = .ok evaluation.value := by
        rw [hevaluate]
        rfl
      obtain ⟨us, e, hus, h, -⟩ := evaluate_eq_ok_iff_postorder.1 hvalue
      cases hts.symm.trans hus
      exact absurd ⟨e, h⟩ hnone
  · exact tokensFail_of_evaluate hts

/-- The operands of `(4-1)*2` are in their places. In `(2+) 3` as many are missing as there are too
many, and yet the text is refused, for the program begins with a value and an operator. -/
theorem evaluate_accepts_product :
    (evaluate .ascii "(4-1)*2".toList).map (·.value) = .ok 6
      ∧ (∃ trailing e, Writes true trailing .sum [.openParen, .number 4, .operator .minus,
        .number 1, .closeParen, .operator .times, .number 2] e)
      ∧ extraOperands false [.openParen, .number 2, .operator .plus, .closeParen, .number 3] = 1
      ∧ missingOperands false [.openParen, .number 2, .operator .plus, .closeParen, .number 3] = 1
      ∧ ∃ cause, evaluate .ascii "(2+) 3".toList = .error cause
        ∧ TokensFail [.openParen, .number 2, .operator .plus, .closeParen, .number 3] cause := by
  have hvalue : (evaluate .ascii "(4-1)*2".toList).map (·.value) = .ok 6 := by decide +kernel
  have hproduct : Token.ofText "(4-1)*2".toList = .ok [.openParen, .number 4, .operator .minus,
      .number 1, .closeParen, .operator .times, .number 2] := by decide +kernel
  have hsum : Token.ofText "(2+) 3".toList = .ok [.openParen, .number 2, .operator .plus,
      .closeParen, .number 3] := by decide +kernel
  have hprogram : Postfix.ofInfix [.openParen, .number 2, .operator .plus, .closeParen, .number 3]
      = .ok [.number 2, .operator .plus, .number 3] := rfl
  obtain ⟨hvalues, htokens⟩ := evaluate_accepts_iff "(4-1)*2".toList
  obtain ⟨ts, e, hts, he, -⟩ := (hvalues 6).1 hvalue
  cases hts.symm.trans hproduct
  obtain ⟨-, -, -, -, hwrites⟩ := (htokens _ hts).2.1 e he
  obtain ⟨trailing, hwritten⟩ := hwrites.2 rfl
  obtain ⟨hsupplied, -, -, -, hrefused, hfails⟩ := (evaluate_accepts_iff _).2 _ hsum
  obtain ⟨cause, hcause⟩ := hrefused fun haccepted => by
    obtain ⟨program, h, hinside, -⟩ := hsupplied.1 haccepted
    cases hprogram.symm.trans h
    exact absurd (hinside [.number 2, .operator .plus] ⟨[.number 3], rfl⟩ (by simp)) (by decide)
  exact ⟨hvalue, ⟨trailing, e, hwritten⟩, rfl, rfl, cause, hcause, hfails cause hcause⟩

/-- The operator of `2 3 +` does not stand between its operands, and yet the text has a value. In
`(1/0) 2` an operand is too many, but the division fails first. -/
theorem misplaced_operands_accepted :
    (∃ ts, Token.ofText "2 3 +".toList = .ok ts
        ∧ (evaluate .ascii "2 3 +".toList).map (·.value) = .ok 5
        ∧ ¬∃ trailing e, Writes true trailing .sum ts e)
      ∧ ∃ ts, Token.ofText "(1/0) 2".toList = .ok ts
        ∧ extraOperands false ts = 1 ∧ missingOperands false ts = 0
        ∧ evaluate .ascii "(1/0) 2".toList = .error .divisionByZero := by
  have hsum : Token.ofText "2 3 +".toList = .ok [.number 2, .number 3, .operator .plus] := by
    decide +kernel
  have hquotient : Token.ofText "(1/0) 2".toList = .ok [.openParen, .number 1, .operator .divide,
      .number 0, .closeParen, .number 2] := by decide +kernel
  refine ⟨⟨_, hsum, by decide +kernel, fun h => ?_⟩, _, hquotient, rfl, rfl, by decide +kernel⟩
  obtain ⟨-, -, hextra, -⟩ := writes_iff.1 h
  cases hextra

end Acceptance

end TexCalc
