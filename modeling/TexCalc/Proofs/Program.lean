import Mathlib.Data.List.Forall2
import TexCalc.Machine
import TexCalc.Proofs.Outcome

/-!
# What the stack machine makes of any program

A program begins with the postorders of expressions that have values. The longest such beginning
(`ListsLongest`) is read in one way only, and it decides the outcome: if it is the whole program its
expressions are counted, and otherwise the token behind it is refused (`Refuses`) on the stack of
their values. The main statement is `value_outcome`.
-/

namespace TexCalc

namespace Expr

/-- The stack machine with expressions in place of their values. -/
def assemble : List Expr → Token → List Expr
  | stack, .number x => .number x :: stack
  | stack, .constant k => .constant k :: stack
  | y :: x :: below, .operator op => .operation op x y :: below
  | x :: below, .function f => .call f x :: below
  | stack, _ => stack

theorem foldl_assemble_postorder (e : Expr) (stack : List Expr) :
    e.postorder.foldl assemble stack = e :: stack := by
  induction e generalizing stack with
  | number x => rfl
  | constant k => rfl
  | operation op left right ihl ihr =>
    simp only [postorder, List.foldl_append, ihl, ihr]
    rfl
  | call f argument ih =>
    simp only [postorder, List.foldl_append, ih]
    rfl

theorem foldl_assemble : ∀ es stack : List Expr,
    (es.flatMap postorder).foldl assemble stack = es.reverse ++ stack
  | [], _ => rfl
  | e :: es, stack => by
    rw [List.flatMap_cons, List.foldl_append, foldl_assemble_postorder, foldl_assemble es]
    simp

theorem flatMap_postorder_injective {es fs : List Expr}
    (h : es.flatMap postorder = fs.flatMap postorder) : es = fs := by
  have hes := foldl_assemble es []
  rw [h, foldl_assemble] at hes
  simpa using hes.symm

theorem postorder_injective {e e' : Expr} (h : e.postorder = e'.postorder) : e = e' := by
  have hlist : [e].flatMap postorder = [e'].flatMap postorder := by simpa using h
  exact (List.cons.inj (flatMap_postorder_injective hlist)).1

theorem count_postorder (e : Expr) : (e.postorder.map Token.kind).count .number
    = (e.postorder.map Token.kind).count .operator + 1 := by
  induction e with
  | number x => rfl
  | constant k => rfl
  | operation op left right ihl ihr =>
    have hnumber : ([.operator op].map Token.kind).count .number = 0 := rfl
    have hoperator : ([.operator op].map Token.kind).count .operator = 1 := rfl
    simp only [postorder, List.map_append, List.count_append, ihl, ihr, hnumber, hoperator]
    omega
  | call f argument ih =>
    have hnumber : ([.function f].map Token.kind).count .number = 0 := rfl
    have hoperator : ([.function f].map Token.kind).count .operator = 0 := rfl
    simp only [postorder, List.map_append, List.count_append, ih, hnumber, hoperator]

theorem count_flatMap_postorder (es : List Expr) :
    ((es.flatMap postorder).map Token.kind).count .number
      = ((es.flatMap postorder).map Token.kind).count .operator + es.length := by
  induction es with
  | nil => rfl
  | cons e es ih =>
    simp only [List.flatMap_cons, List.map_append, List.count_append, e.count_postorder, ih,
      List.length_cons]
    omega

end Expr

namespace Machine

/-- `Lists ts es xs`: the tokens are the postorders of the expressions one after the other, and each
expression yields the number in its place. -/
structure Lists (ts : List Token) (es : List Expr) (xs : List Float) : Prop where
  tokens : ts = es.flatMap Expr.postorder
  values : List.Forall₂ (fun (e : Expr) x => e.Yields (.ok x)) es xs

/-- The longest beginning of a program that lists expressions with values. -/
structure ListsLongest (program ts : List Token) (es : List Expr) (xs : List Float) : Prop where
  begins : ts <+: program
  lists : Lists ts es xs
  longest : ∀ {us : List Token} {fs : List Expr} {ys : List Float}, us <+: program →
    Lists us fs ys → us.length ≤ ts.length

/-- `Refuses stack t cause`: a token that stops the machine, on a stack whose top comes first. -/
inductive Refuses : List Float → Token → Failure → Prop
  | unknown (stack : List Float) (name : Text) :
      Refuses stack (.unknown name) (.misplacedToken name)
  | openParen (stack : List Float) : Refuses stack .openParen (.misplacedToken ['('])
  | closeParen (stack : List Float) : Refuses stack .closeParen (.misplacedToken [')'])
  | missingOperand {stack : List Float} (op : Operator) (few : stack.length < 2) :
      Refuses stack (.operator op) (.missingOperand op)
  | missingArgument (f : Func) : Refuses [] (.function f) (.missingArgument f)
  | zeroDivisor {x y : Float} {below : List Float} (zero : y = 0 ∨ y = -0) :
      Refuses (y :: x :: below) (.operator .divide) .divisionByZero
  | negativeRoot {x : Float} {below : List Float} (negative : x < 0) :
      Refuses (x :: below) (.function .sqrt) (.negativeRoot x)

theorem refuses_of_perform {op : Operator} {x y : Float} {below : List Float} {cause : Failure}
    (h : op.perform x y = .error cause) : Refuses (y :: x :: below) (.operator op) cause := by
  by_cases hop : op = .divide ∧ (y = 0 ∨ y = -0)
  · obtain ⟨rfl, zero⟩ := hop
    rw [Operator.perform_zero zero] at h
    cases h
    exact .zeroDivisor zero
  · rw [Operator.perform_allowed hop] at h
    cases h

theorem refuses_of_apply {f : Func} {x : Float} {below : List Float} {cause : Failure}
    (h : f.perform x = .error cause) : Refuses (x :: below) (.function f) cause := by
  by_cases hf : f = .sqrt ∧ x < 0
  · obtain ⟨rfl, negative⟩ := hf
    rw [Func.perform_negative negative] at h
    cases h
    exact .negativeRoot negative
  · rw [Func.perform_allowed hf] at h
    cases h

theorem refuses_of_step {stack : List Float} {t : Token} {cause : Failure}
    (h : step stack t = .error cause) : Refuses stack t cause := by
  cases t with
  | number x => simp [step] at h
  | constant k => simp [step] at h
  | operator op =>
    rcases stack with _ | ⟨y, _ | ⟨x, below⟩⟩
    · cases h
      exact .missingOperand op (by simp)
    · cases h
      exact .missingOperand op (by simp)
    · rw [step] at h
      rcases hp : op.perform x y with cause' | z <;> rw [hp] at h <;> cases h
      exact refuses_of_perform hp
  | function f =>
    rcases stack with _ | ⟨x, below⟩
    · cases h
      exact .missingArgument f
    · rw [step] at h
      rcases hp : f.perform x with cause' | z <;> rw [hp] at h <;> cases h
      exact refuses_of_apply hp
  | unknown name =>
    simp only [step, Except.error.injEq] at h
    exact h ▸ .unknown stack name
  | openParen =>
    simp only [step, Except.error.injEq] at h
    exact h ▸ .openParen stack
  | closeParen =>
    simp only [step, Except.error.injEq] at h
    exact h ▸ .closeParen stack

/-- Where the machine goes on, so does the list: a value is one more expression, and an operator or
a function makes one of the last expressions. Here the last one comes first, as on the stack. -/
theorem Lists.snoc {ts : List Token} {es : List Expr} {xs stack : List Float} {t : Token}
    (h : Lists ts es.reverse xs.reverse) (hs : step xs t = .ok stack) :
    ∃ fs : List Expr, Lists (ts ++ [t]) fs.reverse stack.reverse := by
  obtain ⟨rfl, hv⟩ := h
  rw [List.forall₂_reverse_iff] at hv
  cases t with
  | number x =>
    simp only [step, Except.ok.injEq] at hs
    subst hs
    exact ⟨.number x :: es, by simp [Expr.postorder],
      List.forall₂_reverse_iff.2 (.cons (.number x) hv)⟩
  | constant k =>
    simp only [step, Except.ok.injEq] at hs
    subst hs
    exact ⟨.constant k :: es, by simp [Expr.postorder],
      List.forall₂_reverse_iff.2 (.cons (.constant k) hv)⟩
  | operator op =>
    rcases hv with _ | @⟨right, y, _, _, hr, _ | @⟨left, x, es, xs, hl, hv⟩⟩
    · cases hs
    · cases hs
    · rw [step] at hs
      rcases hp : op.perform x y with cause | z <;> rw [hp] at hs <;> cases hs
      refine ⟨.operation op left right :: es, by simp [Expr.postorder], ?_⟩
      refine List.forall₂_reverse_iff.2 (.cons ?_ hv)
      rw [Expr.yields_iff] at hl hr ⊢
      rw [Expr.eval, hl, hr]
      exact hp
  | function f =>
    rcases hv with _ | @⟨argument, x, es, xs, ha, hv⟩
    · cases hs
    · rw [step] at hs
      rcases hp : f.perform x with cause | z <;> rw [hp] at hs <;> cases hs
      refine ⟨.call f argument :: es, by simp [Expr.postorder], ?_⟩
      refine List.forall₂_reverse_iff.2 (.cons ?_ hv)
      rw [Expr.yields_iff] at ha ⊢
      rw [Expr.eval, ha]
      exact hp
  | unknown name => simp [step] at hs
  | openParen => simp [step] at hs
  | closeParen => simp [step] at hs

theorem run_cons (stack : List Float) (t : Token) (program : List Token) :
    run stack (t :: program) = (step stack t).bind fun next => run next program :=
  rfl

theorem run_append (stack : List Float) (program further : List Token) :
    run stack (program ++ further) = (run stack program).bind fun next => run next further :=
  List.foldlM_append

theorem run_singleton (stack : List Float) (t : Token) : run stack [t] = step stack t := by
  rw [run_cons]
  cases step stack t <;> rfl

/-- The postorder of an expression adds its value to the stack, or fails as the expression does. -/
theorem run_postorder (e : Expr) (stack : List Float) :
    run stack e.postorder = e.eval.map (· :: stack) := by
  induction e generalizing stack with
  | number x => rfl
  | constant k => rfl
  | operation op left right ihl ihr =>
    rw [Expr.postorder, run_append, run_append, ihl, Expr.eval]
    rcases left.eval with cause | x
    · rfl
    simp only [Except.map, Except.bind, ihr, run_singleton]
    rcases right.eval with cause | y
    · rfl
    · rfl
  | call f argument ih =>
    rw [Expr.postorder, run_append, ih, Expr.eval]
    simp only [run_singleton]
    rcases argument.eval with cause | x
    · rfl
    · rfl

theorem value_postorder (e : Expr) : value e.postorder = e.eval := by
  rw [value, run_postorder]
  cases e.eval <;> rfl

theorem run_lists {ts : List Token} {es : List Expr} {xs : List Float} (h : Lists ts es xs)
    (stack : List Float) : run stack ts = .ok (xs.reverse ++ stack) := by
  obtain ⟨rfl, hv⟩ := h
  induction hv generalizing stack with
  | nil => rfl
  | cons he _ ih =>
    rw [Expr.yields_iff] at he
    rw [List.flatMap_cons, run_append, run_postorder, he]
    change run _ _ = _
    rw [ih]
    simp

/-- What follows a list goes on with it to the end, or up to a token that is refused. -/
theorem Lists.append_or_refused (program : List Token) :
    ∀ {ts : List Token} {es : List Expr} {xs : List Float}, Lists ts es.reverse xs.reverse →
      (∃ fs ys, Lists (ts ++ program) (List.reverse fs) (List.reverse ys))
        ∨ ∃ us t rest fs ys cause, program = us ++ t :: rest
          ∧ Lists (ts ++ us) (List.reverse fs) (List.reverse ys) ∧ step ys t = .error cause := by
  induction program with
  | nil =>
    intro ts es xs h
    exact .inl ⟨es, xs, by simpa using h⟩
  | cons t program ih =>
    intro ts es xs h
    rcases hs : step xs t with cause | stack
    · exact .inr ⟨[], t, program, es, xs, cause, rfl, by simpa using h, hs⟩
    obtain ⟨fs, hfs⟩ := h.snoc hs
    rcases ih hfs with ⟨gs, ys, hgs⟩ | ⟨us, t', rest, gs, ys, cause, rfl, hgs, hstep⟩
    · exact .inl ⟨gs, ys, by simpa using hgs⟩
    · exact .inr ⟨t :: us, t', rest, gs, ys, cause, rfl, by simpa using hgs, hstep⟩

theorem Lists.length_eq {ts : List Token} {es : List Expr} {xs : List Float} (h : Lists ts es xs) :
    es.length = xs.length :=
  h.values.length_eq

theorem Lists.count_eq {ts : List Token} {es : List Expr} {xs : List Float} (h : Lists ts es xs) :
    (ts.map Token.kind).count .number = (ts.map Token.kind).count .operator + es.length := by
  rw [h.tokens, Expr.count_flatMap_postorder]

theorem Lists.unique {ts : List Token} {es fs : List Expr} {xs ys : List Float}
    (h : Lists ts es xs) (h' : Lists ts fs ys) : fs = es ∧ ys = xs := by
  obtain ⟨rfl, hv⟩ := h
  obtain ⟨htokens, hv'⟩ := h'
  obtain rfl := Expr.flatMap_postorder_injective htokens
  refine ⟨rfl, List.right_unique_forall₂' (fun e x y hx hy => ?_) hv' hv⟩
  rw [Expr.yields_iff] at hx hy
  exact Except.ok.inj (hx.symm.trans hy)

/-- A list in front of a token that is refused cannot be longer. -/
theorem Lists.longest_of_step {ts rest : List Token} {t : Token} {es : List Expr} {xs : List Float}
    {cause : Failure} (h : Lists ts es xs) (hs : step xs.reverse t = .error cause) :
    ListsLongest (ts ++ t :: rest) ts es xs := by
  refine ⟨List.prefix_append _ _, h, fun {us fs ys} hus hlists => ?_⟩
  by_contra hlt
  -- a longer list has the token in it, and the machine runs through all of a list
  have htus : ts ++ [t] <+: us := by
    refine List.prefix_of_prefix_length_le ⟨rest, by simp⟩ hus ?_
    rw [List.length_append, List.length_singleton]
    omega
  obtain ⟨further, rfl⟩ := htus
  have hrun := run_lists hlists []
  rw [run_append, run_append, run_lists h] at hrun
  simp [Except.bind, run_singleton, hs] at hrun

theorem ListsLongest.unique {program ts us : List Token} {es fs : List Expr} {xs ys : List Float}
    (h : ListsLongest program ts es xs) (h' : ListsLongest program us fs ys) :
    us = ts ∧ fs = es ∧ ys = xs := by
  have hlength := Nat.le_antisymm (h.longest h'.begins h'.lists) (h'.longest h.begins h.lists)
  have hprefix := List.prefix_of_prefix_length_le h'.begins h.begins (Nat.le_of_eq hlength)
  obtain rfl := hprefix.eq_of_length hlength
  exact ⟨rfl, h.lists.unique h'.lists⟩

theorem Lists.longest {program : List Token} {es : List Expr} {xs : List Float}
    (h : Lists program es xs) : ListsLongest program program es xs :=
  ⟨List.prefix_refl program, h, fun hus _ => hus.length_le⟩

theorem lists_postorder {e : Expr} {x : Float} (h : e.Yields (.ok x)) :
    Lists e.postorder [e] [x] :=
  ⟨by simp, .cons h .nil⟩

theorem value_of_lists_one {program : List Token} {es : List Expr} {x : Float}
    (h : Lists program es [x]) : value program = .ok x := by
  rw [value, run_lists h]
  rfl

theorem value_of_run {program : List Token} {stack : List Float}
    (h : run [] program = .ok stack) (hstack : stack.length ≠ 1) :
    value program = .error (.unbalancedStack stack.length) := by
  rw [value, h]
  rcases stack with _ | ⟨x, _ | ⟨y, stack⟩⟩
  · rfl
  · exact absurd rfl hstack
  · rfl

theorem value_of_lists {program : List Token} {es : List Expr} {xs : List Float}
    (h : Lists program es xs) (hes : es.length ≠ 1) :
    value program = .error (.unbalancedStack es.length) := by
  have hlength : (xs.reverse ++ []).length = es.length := by simp [h.length_eq]
  rw [← hlength] at hes ⊢
  exact value_of_run (run_lists h []) hes

theorem value_of_refused {ts rest : List Token} {t : Token} {es : List Expr} {xs : List Float}
    {cause : Failure} (h : Lists ts es xs) (hs : step xs.reverse t = .error cause) :
    value (ts ++ t :: rest) = .error cause := by
  rw [value, run_append, run_lists h, List.append_nil]
  simp only [Except.bind, run_cons, hs]
  rfl

theorem lists_or_refused (program : List Token) : (∃ es xs, Lists program es xs)
    ∨ ∃ ts t rest es xs cause, program = ts ++ t :: rest ∧ Lists ts es xs
      ∧ step (List.reverse xs) t = .error cause := by
  have hnil : Lists [] (List.reverse []) (List.reverse []) := ⟨rfl, .nil⟩
  rcases hnil.append_or_refused program with
    ⟨fs, ys, h⟩ | ⟨us, t, rest, fs, ys, cause, rfl, h, hs⟩
  · exact .inl ⟨fs.reverse, ys.reverse, h⟩
  · exact .inr ⟨us, t, rest, fs.reverse, ys.reverse, cause, rfl, h, by rwa [List.reverse_reverse]⟩

/-- A program without a value leaves too few numbers or too many, or one of its tokens is refused. -/
theorem error_of_value {program : List Token} {cause : Failure} (h : value program = .error cause) :
    (∃ left, cause = .unbalancedStack left) ∨ ∃ front t back es stack, program = front ++ t :: back
      ∧ Lists front (List.reverse es) (List.reverse stack) ∧ Refuses stack t cause := by
  rcases lists_or_refused program with ⟨es, xs, hl⟩ | ⟨ts, t, rest, es, xs, cause', rfl, hl, hs⟩
  · by_cases hes : es.length = 1
    · obtain ⟨x, rfl⟩ := List.length_eq_one_iff.1 (hl.length_eq ▸ hes)
      rw [value_of_lists_one hl] at h
      cases h
    · rw [value_of_lists hl hes] at h
      cases h
      exact .inl ⟨_, rfl⟩
  · rw [value_of_refused hl hs] at h
    cases h
    refine .inr ⟨ts, t, rest, es.reverse, xs.reverse, rfl, ?_, refuses_of_step hs⟩
    rwa [List.reverse_reverse, List.reverse_reverse]

/-- The programs with a value are the postorders of the expressions with that value. -/
theorem value_eq_ok_iff {program : List Token} {x : Float} :
    value program = .ok x ↔ ∃ e : Expr, program = e.postorder ∧ e.Yields (.ok x) := by
  constructor
  · intro hx
    rcases lists_or_refused program with ⟨es, xs, h⟩ | ⟨ts, t, rest, es, xs, cause, rfl, h, hs⟩
    · by_cases hes : es.length = 1
      · obtain ⟨e, rfl⟩ := List.length_eq_one_iff.1 hes
        obtain ⟨rfl, hv⟩ := h
        obtain ⟨y, ys, hy, hys, rfl⟩ := List.forall₂_cons_left_iff.1 hv
        obtain rfl := List.forall₂_nil_left_iff.1 hys
        rw [value_of_lists_one ⟨rfl, hv⟩, Except.ok.injEq] at hx
        exact ⟨e, by simp, hx ▸ hy⟩
      · rw [value_of_lists h hes] at hx
        cases hx
    · rw [value_of_refused h hs] at hx
      cases hx
  · rintro ⟨e, rfl, hx⟩
    exact value_of_lists_one (lists_postorder hx)

/-- Any program has a longest beginning that lists expressions with values, in one way only, and
with it one outcome. If it is the whole program, its `k` expressions are as many as it has more
values than operators, and one of them alone gives the value. Otherwise the token behind it is
refused. So the programs with a value are the postorders of the expressions with that value. -/
theorem value_outcome (program : List Token) : ∃ ts es xs, ListsLongest program ts es xs
    ∧ (∀ us fs ys, ListsLongest program us fs ys → us = ts ∧ fs = es ∧ ys = xs)
    ∧ (program = ts →
      (es.length : Int) = (program.map Token.kind).count .number
          - (program.map Token.kind).count .operator
        ∧ (∀ x, xs = [x] → value program = .ok x)
        ∧ (es.length ≠ 1 → value program = .error (.unbalancedStack es.length)))
    ∧ (∀ t rest, program = ts ++ t :: rest →
      ∃ cause, Refuses xs.reverse t cause ∧ value program = .error cause)
    ∧ ∀ x, value program = .ok x ↔ ∃ e : Expr, program = e.postorder ∧ e.Yields (.ok x) := by
  rcases lists_or_refused program with ⟨es, xs, h⟩ | ⟨ts, t, rest, es, xs, cause, rfl, h, hs⟩
  · refine ⟨program, es, xs, h.longest, fun _ _ _ => h.longest.unique, fun _ => ⟨?_, ?_, ?_⟩, ?_,
      fun _ => value_eq_ok_iff⟩
    · have := h.count_eq
      omega
    · rintro x rfl
      exact value_of_lists_one h
    · exact value_of_lists h
    · intro t rest ht
      simp at ht
  · refine ⟨ts, es, xs, h.longest_of_step hs, fun _ _ _ => (h.longest_of_step hs).unique, ?_, ?_,
      fun _ => value_eq_ok_iff⟩
    · intro hts
      simp at hts
    · intro t' rest' heq
      obtain ⟨rfl, rfl⟩ := List.cons.inj (List.append_cancel_left heq)
      exact ⟨cause, refuses_of_step hs, value_of_refused h hs⟩

end Machine

end TexCalc
