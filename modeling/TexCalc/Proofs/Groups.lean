import Mathlib.Data.List.Infix
import TexCalc.Proofs.Agreement
import TexCalc.Proofs.Parentheses
import TexCalc.Proofs.Parts

/-!
# Groups stand on their own

An open parenthesis hides what waits before it: as long as the tokens behind it close no more groups
than they open, they run as if nothing waited (`run_frame`). So a group lets go what its tokens are
alone, and leaves in front of it what waited there, but for a function that it is the argument of
(`run_parenthesised`). Nothing is asked of the order of values and operators in the group. The main
statement is `evaluate_parenthesised`.
-/

namespace TexCalc

namespace Postfix

section Frame

variable {left pending : List Pending}

theorem yieldTo_frame (op : Operator) (pending : List Pending) : ∀ left : List Pending,
    yieldTo op (left ++ .group :: pending)
      = ((yieldTo op left).1, (yieldTo op left).2 ++ .group :: pending)
  | [] => rfl
  | .function _ :: _ => rfl
  | .group :: _ => rfl
  | .operator top :: left => by
    rw [List.cons_append, yieldTo, yieldTo]
    split
    · rw [yieldTo_frame op pending left]
    · rfl

theorem closeGroup?_frame (pending : List Pending) : ∀ {left : List Pending}, .group ∈ left →
    closeGroup? (left ++ pending) = (closeGroup? left).map fun r => (r.1, r.2 ++ pending)
  | .group :: _, _ => rfl
  | .operator op :: left, h => by
    rw [List.cons_append, closeGroup?, closeGroup?, closeGroup?_frame pending (by simpa using h)]
    cases closeGroup? left <;> rfl
  | .function f :: left, h => by
    rw [List.cons_append, closeGroup?, closeGroup?, closeGroup?_frame pending (by simpa using h)]
    cases closeGroup? left <;> rfl

theorem closeCall_frame (left pending : List Pending) : closeCall (left ++ .group :: pending)
    = ((closeCall left).1, (closeCall left).2 ++ .group :: pending) := by
  rcases left with _ | ⟨_ | _ | _, left⟩ <;> rfl

theorem step_frame (pending : List Pending) {t : Token} (h : t = .closeParen → .group ∈ left) :
    step (left ++ .group :: pending) t
      = (step left t).map fun r => (r.1, r.2 ++ .group :: pending) := by
  rcases t with x | k | op | f | name | _ | _
  · rfl
  · rfl
  · simp only [step, yieldTo_frame]
    rfl
  · rfl
  · rfl
  · rfl
  · simp only [step, closeGroup?_frame _ (h rfl)]
    rcases closeGroup? left with _ | ⟨inner, below⟩
    · rfl
    · simp only [Option.map_some, closeCall_frame]
      rfl

/-- Tokens that close no more groups than are open above an open parenthesis do not see what waits
below it. -/
theorem run_frame {ts : List Token} : ∀ left : List Pending,
    (∀ us, us <+: ts → us.count .closeParen ≤ left.count .group + us.count .openParen) →
    run (left ++ .group :: pending) ts
      = (run left ts).map fun r => (r.1, r.2 ++ .group :: pending) := by
  induction ts with
  | nil => exact fun _ _ => rfl
  | cons t ts ih =>
    intro left h
    have hgroup : t = .closeParen → .group ∈ left := by
      rintro rfl
      have hfirst := h [.closeParen] (List.prefix_append _ ts)
      exact List.count_pos_iff.1 (by simpa using hfirst)
    have hstep := step_frame pending hgroup
    rcases hs : step left t with cause | ⟨out, next⟩
    · rw [hs] at hstep
      rw [run, hstep, run, hs]
      rfl
    · rw [hs] at hstep
      have hcount := count_step hs
      rw [run_cons ts hstep, run_cons ts hs, ih]
      · cases run next ts <;> rfl
      · intro us hus
        have hlong := h (t :: us) ((List.prefix_cons_inj t).2 hus)
        rw [← List.singleton_append, List.count_append, List.count_append] at hlong
        dsimp only
        omega

end Frame

section Closed

variable {pending : List Pending} {ts us program : List Token}

theorem run_append_error {cause : Failure} : ∀ {ts : List Token} {pending : List Pending},
    run pending ts = .error cause → run pending (ts ++ us) = .error cause
  | [], _, h => by cases h
  | t :: ts, pending, h => by
    rw [List.cons_append, run_cons_eq_error_iff]
    rcases run_cons_eq_error_iff.1 h with hs | ⟨first, next, hs, hr⟩
    · exact .inl hs
    · exact .inr ⟨first, next, hs, run_append_error hr⟩

/-- What tokens let go above what waits if they are the last ones. -/
def finish (pending : List Pending) (ts : List Token) : Except Failure (List Token) :=
  (run pending ts).bind fun r => (flush r.2).map (r.1 ++ ·)

theorem ofInfix_eq_finish (ts : List Token) : ofInfix ts = finish [] ts := by
  rw [ofInfix, finish]
  rcases run [] ts with cause | ⟨out, left⟩
  · rfl
  · change (flush left >>= _) = (flush left).map _
    cases flush left <;> rfl

theorem finish_append (h : run pending ts = .ok (out, left)) (us : List Token) :
    finish pending (ts ++ us) = (finish left us).map (out ++ ·) := by
  rw [finish, finish, run_append us h]
  rcases run left us with cause | ⟨further, next⟩
  · rfl
  · simp only [Except.map, Except.bind]
    cases flush next <;> simp

theorem finish_append_error {cause : Failure} (h : run pending ts = .error cause)
    (us : List Token) : finish pending (ts ++ us) = .error cause := by
  rw [finish, run_append_error h]
  rfl

/-- Tokens are in order if at their end no group waits, and then all that waits goes. -/
theorem ofInfix_eq_ok_iff : ofInfix ts = .ok program ↔ ∃ out left, run [] ts = .ok (out, left)
    ∧ .group ∉ left ∧ program = out ++ left.map Pending.token := by
  constructor
  · intro h
    rcases hr : run [] ts with cause | ⟨out, left⟩
    · rw [ofInfix, hr] at h
      cases h
    rw [ofInfix, hr] at h
    change (flush left >>= _) = _ at h
    by_cases hgroup : .group ∈ left
    · rw [flush_of_group hgroup] at h
      cases h
    · rw [flush_eq hgroup] at h
      cases h
      exact ⟨out, left, rfl, hgroup, rfl⟩
  · rintro ⟨out, left, hr, hgroup, rfl⟩
    rw [ofInfix, hr]
    change (flush left >>= _) = _
    rw [flush_eq hgroup]
    rfl

/-- The tokens close only groups that they have opened, and all of these. -/
structure Closed (ts : List Token) : Prop where
  inside : ∀ us, us <+: ts → us.count .closeParen ≤ us.count .openParen
  whole : ts.count .closeParen = ts.count .openParen

theorem closed_of_ofInfix (h : ofInfix ts = .ok program) : Closed ts := by
  obtain ⟨out, left, hr, hgroup, -⟩ := ofInfix_eq_ok_iff.1 h
  refine ⟨?_, ?_⟩
  · rintro us ⟨vs, rfl⟩
    rcases hus : run [] us with cause | ⟨first, next⟩
    · rw [run_append_error hus] at hr
      cases hr
    · have hcount := count_run hus
      rw [List.count_nil] at hcount
      omega
  · have hcount := count_run hr
    rw [List.count_nil, List.count_eq_zero.2 hgroup] at hcount
    omega

/-- A group in parentheses lets its program go, and then the function in front of it if there is
one. -/
theorem run_parenthesised (h : Closed ts) (pending : List Pending) :
    run pending (.openParen :: (ts ++ [.closeParen]))
      = (ofInfix ts).map fun program =>
        (program ++ (closeCall pending).1, (closeCall pending).2) := by
  have hopen : step pending .openParen = .ok ([], .group :: pending) := rfl
  have hframe : run (.group :: pending) ts
      = (run [] ts).map fun r => (r.1, r.2 ++ .group :: pending) :=
    run_frame [] fun us hus => by simpa using h.inside us hus
  rw [run_cons _ hopen]
  rcases hr : run [] ts with cause | ⟨out, left⟩
  · rw [hr] at hframe
    rw [run_append_error hframe, ofInfix, hr]
    rfl
  rw [hr] at hframe
  have hgroup : .group ∉ left := by
    have hcount := count_run hr
    rw [List.count_nil, h.whole] at hcount
    exact List.count_eq_zero.1 (by omega)
  have hprogram := ofInfix_eq_ok_iff.2 ⟨out, left, hr, hgroup, rfl⟩
  rw [run_append_ok hframe (run_closeParen hgroup), hprogram]
  simp [Except.map]

/-- A group with a program is one operand for what waits in front of it, if that is no function. -/
theorem run_operand (h : ofInfix ts = .ok program) (hcall : closeCall pending = ([], pending)) :
    run pending (.openParen :: (ts ++ [.closeParen])) = .ok (program, pending) := by
  rw [run_parenthesised (closed_of_ofInfix h), h, hcall]
  simp [Except.map]

theorem ofInfix_parenthesised (h : ofInfix ts = .ok program) :
    ofInfix (.openParen :: (ts ++ [.closeParen])) = .ok program :=
  ofInfix_eq_ok_iff.2 ⟨program, [], run_operand h rfl, by simp, by simp⟩

theorem ofInfix_call (f : Func) (h : ofInfix ts = .ok program) :
    ofInfix (.function f :: .openParen :: (ts ++ [.closeParen]))
      = .ok (program ++ [.function f]) := by
  have hfunction : step [] (.function f) = .ok ([], [.function f]) := rfl
  refine ofInfix_eq_ok_iff.2 ⟨program ++ [.function f], [], ?_, by simp, by simp⟩
  rw [run_cons _ hfunction, run_parenthesised (closed_of_ofInfix h), h]
  rfl

/-- An operator between two groups waits behind what these are. -/
theorem run_betweenGroups (op : Operator) (ht : Closed ts) (hu : Closed us)
    (hcall : closeCall pending = ([], pending)) (hyield : yieldTo op pending = ([], pending)) :
    run pending (.openParen :: (ts ++ [.closeParen])
        ++ .operator op :: .openParen :: (us ++ [.closeParen]))
      = (ofInfix ts).bind fun program => (ofInfix us).map fun program' =>
        (program ++ program', .operator op :: pending) := by
  have hoperator : step pending (.operator op) = .ok ([], .operator op :: pending) := by
    simp only [step, hyield]
  have hleft := run_parenthesised ht pending
  have hright := run_parenthesised hu (.operator op :: pending)
  rcases hprogram : ofInfix ts with cause | program <;> rw [hprogram] at hleft
  · exact run_append_error hleft
  simp only [Except.map, hcall, List.append_nil] at hleft
  rw [run_append _ hleft, run_cons _ hoperator, hright]
  rcases ofInfix us with cause | program' <;> simp [Except.map, Except.bind, closeCall]

theorem ofInfix_operation (op : Operator) {program' : List Token} (h : ofInfix ts = .ok program)
    (h' : ofInfix us = .ok program') :
    ofInfix (.openParen :: (ts ++ [.closeParen])
        ++ .operator op :: .openParen :: (us ++ [.closeParen]))
      = .ok (program ++ program' ++ [.operator op]) := by
  refine ofInfix_eq_ok_iff.2 ⟨program ++ program', [.operator op], ?_, by simp, rfl⟩
  rw [run_betweenGroups op (closed_of_ofInfix h) (closed_of_ofInfix h') rfl rfl, h, h']
  rfl

end Closed

end Postfix

/-- The text closes only parentheses that it has opened, and all of these. -/
structure Text.Matched (t : Text) : Prop where
  inside : ∀ w : Text, w <+: t → 0 ≤ w.surplus
  whole : t.surplus = 0

theorem Text.matched_iff (t : Text) :
    t.Matched ↔ (∀ w ∈ t.inits, 0 ≤ Text.surplus w) ∧ t.surplus = 0 := by
  simp only [List.mem_inits]
  exact ⟨fun h => ⟨h.inside, h.whole⟩, fun h => ⟨h.1, h.2⟩⟩

instance (t : Text) : Decidable t.Matched :=
  decidable_of_iff _ (Text.matched_iff t).symm

section Matched

/-- The last tokens of a text are those of a text that it ends in. -/
theorem exists_suffix_of_reads {signAllowed : Bool} {t : Text} {ts : List Token}
    (h : Reads signAllowed t ts) :
    ∀ {us vs : List Token}, ts = us ++ vs → ∃ v, v <:+ t ∧ ∃ allowed, Reads allowed v vs := by
  induction h using Reads.induction with
  | @nothing signAllowed gap blank =>
    intro us vs heq
    obtain ⟨rfl, rfl⟩ := List.append_eq_nil_iff.1 heq.symm
    exact ⟨gap, List.suffix_refl gap, signAllowed, (reads_blank_iff blank).2 rfl⟩
  | @lexeme signAllowed gap w rest t ts blank lexeme fits further ih =>
    rintro (_ | ⟨u, us⟩) vs heq
    · cases heq
      exact ⟨_, List.suffix_refl _, signAllowed,
        (reads_behind_gap_iff blank).2 (further.cons lexeme fits)⟩
    · obtain ⟨-, heq⟩ := List.cons.inj heq
      obtain ⟨v, hv, allowed, hreads⟩ := ih heq
      have hsuffix : rest <:+ gap ++ (w ++ rest) :=
        (List.suffix_append w rest).trans (List.suffix_append gap _)
      exact ⟨v, hv.trans hsuffix, allowed, hreads⟩

theorem closed_of_matched {signAllowed : Bool} {t : Text} {ts : List Token}
    (h : Reads signAllowed t ts) (ht : t.Matched) : Postfix.Closed ts := by
  obtain ⟨hopen, hclose⟩ := sameParens_of_reads h
  have hwhole := ht.whole
  refine ⟨?_, ?_⟩
  · rintro us ⟨vs, rfl⟩
    obtain ⟨_, ⟨w, rfl⟩, allowed, hreads⟩ := exists_suffix_of_reads h rfl
    obtain ⟨hopen', hclose'⟩ := sameParens_of_reads hreads
    have hinside := ht.inside w (List.prefix_append w _)
    simp only [List.count_append, Text.surplus] at hopen hclose hwhole hinside
    omega
  · rw [Text.surplus] at hwhole
    omega

end Matched

section Composition

variable {t u : Text} {ts us : List Token} {x y : Float}

/-- A text with a value is read as tokens whose program is the postorder of an expression with that
value. -/
theorem exists_expr_of_value (h : (evaluate .ascii t).map (·.value) = .ok x) :
    ∃ ts e, Reads true t ts ∧ Postfix.ofInfix ts = .ok (Expr.postorder e) ∧ e.eval = .ok x := by
  obtain ⟨ts, program, hts, hprogram, hvalue⟩ := evaluate_eq_ok_iff.1 h
  obtain ⟨e, rfl, he⟩ := Machine.value_eq_ok_iff.1 hvalue
  exact ⟨ts, e, hts, hprogram, Expr.yields_iff.1 he⟩

theorem evaluate_of_reads {e : Expr} (ht : Reads true t ts)
    (hts : Postfix.ofInfix ts = .ok e.postorder) :
    (evaluate .ascii t).map (·.value) = e.eval := by
  rw [evaluate_ascii ht hts, Machine.value_postorder]

theorem Reads.parenthesised (h : Reads true t ts) (signAllowed : Bool) :
    Reads signAllowed t.parenthesised (.openParen :: (ts ++ [.closeParen])) := by
  have hnil : Reads false [] [] := (reads_blank_iff rfl).2 rfl
  simpa using reads_parenthesised_iff.2 ⟨ts, [], h, hnil, rfl⟩

theorem Reads.operation (op : Operator) (ht : Reads true t ts) (hu : Reads true u us) :
    Reads true (t.parenthesised ++ op.symbol :: u.parenthesised)
      (.openParen :: (ts ++ [.closeParen])
        ++ .operator op :: .openParen :: (us ++ [.closeParen])) := by
  have hnil : Reads false [] [] := (reads_blank_iff rfl).2 rfl
  simpa using (reads_operation_iff op).2 ⟨ts, us, [], ht, hu, hnil, rfl⟩

theorem Reads.call (f : Func) (ht : Reads true t ts) : Reads true (f.name ++ t.parenthesised)
    (.function f :: .openParen :: (ts ++ [.closeParen])) := by
  have hfits : Token.Fits true f.name t.parenthesised (.function f) := rfl
  have hrest := (reads_iff_scan (0 + f.name.length)).1
    (ht.parenthesised (Token.function f).kind.allowsSign)
  rw [Reads, Token.scan_lexeme (.function f) hfits, hrest]
  rfl

/-- Whatever has a value keeps it in parentheses, and there it is an operand of any operator and the
argument of any function, even where its own tokens are not in the order of infix notation. -/
theorem evaluate_parenthesised (ht : (evaluate .ascii t).map (·.value) = .ok x)
    (hu : (evaluate .ascii u).map (·.value) = .ok y) :
    (∀ op : Operator,
        (evaluate .ascii (t.parenthesised ++ op.symbol :: u.parenthesised)).map (·.value)
          = op.perform x y)
      ∧ (∀ f : Func, (evaluate .ascii (f.name ++ t.parenthesised)).map (·.value) = f.perform x)
      ∧ (evaluate .ascii t.parenthesised).map (·.value) = .ok x := by
  obtain ⟨ts, e, hts, hprogram, hx⟩ := exists_expr_of_value ht
  obtain ⟨us, e', hus, hprogram', hy⟩ := exists_expr_of_value hu
  refine ⟨fun op => ?_, fun f => ?_, ?_⟩
  · have hoperation := Postfix.ofInfix_operation op hprogram hprogram'
    rw [evaluate_of_reads (e := .operation op e e') (hts.operation op hus) hoperation, Expr.eval,
      hx, hy]
    rfl
  · have hcall := Postfix.ofInfix_call f hprogram
    rw [evaluate_of_reads (e := .call f e) (hts.call f) hcall, Expr.eval, hx]
    rfl
  · rw [evaluate_of_reads (hts.parenthesised true) (Postfix.ofInfix_parenthesised hprogram), hx]

/-- The values of `2 3 +` stand in front of their operator and `() 0 sqrt` begins with an empty
group, and both texts are operands like any other; the second one is zero and refused as a
divisor. -/
theorem evaluate_parenthesised_postfix :
    (evaluate .ascii "2 3 +".toList).map (·.value) = .ok 5
      ∧ (evaluate .ascii "() 0 sqrt".toList).map (·.value) = .ok 0
      ∧ (evaluate .ascii "(2 3 +)/(() 0 sqrt)".toList).map (·.value) = .error .divisionByZero := by
  have ht : (evaluate .ascii "2 3 +".toList).map (·.value) = .ok 5 := by decide +kernel
  have hu : (evaluate .ascii "() 0 sqrt".toList).map (·.value) = .ok 0 := by decide +kernel
  refine ⟨ht, hu, ((evaluate_parenthesised ht hu).1 .divide).trans ?_⟩
  decide +kernel

end Composition

end TexCalc
