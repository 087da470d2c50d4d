import TexCalc.Grammar
import TexCalc.Postfix

/-!
# Postfix order of infix notation

Tokens that write an expression are put into its postorder (`ofInfix_eq_postorder`). While they run,
what waited before them stays where it is, and what they leave waiting above it completes the
postorder (`leaves_of_writes`): tokens without a trailing bare function leave only operators of
their own rank or tighter, which is what an operator behind them needs to take them as its left
operand.
-/

namespace TexCalc

def Pending.token : Pending → Token
  | .operator op => .operator op
  | .function f => .function f
  | .group => .openParen

namespace Operator

/-- An operator takes all of its left operand. -/
theorem precedes_of_leftRank {top op : Operator} (h : op.leftRank.level ≤ top.rank.level) :
    top.precedes op = true := by
  cases top <;> cases op <;> revert h <;> decide

/-- Nothing in the right operand of an operator takes it. -/
theorem not_precedes_of_rightRank {top op : Operator} (h : top.rightRank.level ≤ op.rank.level) :
    top.precedes op = false := by
  cases top <;> cases op <;> revert h <;> decide

theorem rank_le_rightRank (op : Operator) : op.rank.level ≤ op.rightRank.level := by
  cases op <;> decide

theorem rank_le_leftRank (op : Operator) : op.rank.level ≤ op.leftRank.level := by
  cases op <;> decide

end Operator

namespace Postfix

theorem run_cons {pending pending' : List Pending} {t : Token} {out : List Token} (ts : List Token)
    (h : step pending t = .ok (out, pending')) :
    run pending (t :: ts) = (run pending' ts).map fun r => (out ++ r.1, r.2) := by
  rw [run, h]
  change (run pending' ts >>= _) = _
  cases run pending' ts <;> rfl

/-- Tokens run if the first one does, and the others behind it. -/
theorem run_cons_eq_ok_iff {pending left : List Pending} {t : Token} {ts out : List Token} :
    run pending (t :: ts) = .ok (out, left) ↔ ∃ first next further,
      step pending t = .ok (first, next) ∧ run next ts = .ok (further, left)
        ∧ out = first ++ further := by
  constructor
  · intro h
    rcases hs : step pending t with cause | ⟨first, next⟩
    · rw [run, hs] at h
      cases h
    rw [run_cons ts hs] at h
    rcases hr : run next ts with cause | ⟨further, rest⟩ <;> rw [hr] at h <;> cases h
    exact ⟨first, next, further, rfl, hr, rfl⟩
  · rintro ⟨first, next, further, hs, hr, rfl⟩
    rw [run_cons ts hs, hr]
    rfl

/-- The first token that fails decides the failure. -/
theorem run_cons_eq_error_iff {pending : List Pending} {t : Token} {ts : List Token}
    {cause : Failure} : run pending (t :: ts) = .error cause ↔ step pending t = .error cause
      ∨ ∃ first next, step pending t = .ok (first, next) ∧ run next ts = .error cause := by
  constructor
  · intro h
    rcases hs : step pending t with cause' | ⟨first, next⟩
    · rw [run, hs] at h
      cases h
      exact .inl rfl
    rw [run_cons ts hs] at h
    rcases hr : run next ts with cause' | ⟨further, rest⟩ <;> rw [hr] at h <;> cases h
    exact .inr ⟨first, next, rfl, hr⟩
  · rintro (hs | ⟨first, next, hs, hr⟩)
    · rw [run, hs]
      rfl
    · rw [run_cons ts hs, hr]
      rfl

theorem run_append {pending pending' : List Pending} {ts out : List Token} (us : List Token)
    (h : run pending ts = .ok (out, pending')) :
    run pending (ts ++ us) = (run pending' us).map fun r => (out ++ r.1, r.2) := by
  induction ts generalizing pending out with
  | nil =>
    cases h
    cases hu : run pending' us <;> simp [Except.map, hu]
  | cons t ts ih =>
    obtain ⟨first, next, further, hs, hr, rfl⟩ := run_cons_eq_ok_iff.1 h
    rw [List.cons_append, run_cons _ hs, ih hr]
    cases run pending' us <;> simp [Except.map]

theorem run_append_ok {pending pending' left : List Pending} {ts us out further : List Token}
    (h : run pending ts = .ok (out, pending')) (h' : run pending' us = .ok (further, left)) :
    run pending (ts ++ us) = .ok (out ++ further, left) := by
  rw [run_append us h, h']
  rfl

theorem yieldTo_append {op : Operator} {pending : List Pending}
    (hp : yieldTo op pending = ([], pending)) : ∀ {left : List Pending},
      (∀ w ∈ left, ∃ top : Operator, w = .operator top ∧ top.precedes op = true) →
      yieldTo op (left ++ pending) = (left.map Pending.token, pending)
  | [], _ => hp
  | w :: left, h => by
    obtain ⟨top, rfl, htop⟩ := h w List.mem_cons_self
    have ih := yieldTo_append hp fun w hw => h w (List.mem_cons_of_mem _ hw)
    rw [List.cons_append, yieldTo, if_pos htop, ih]
    rfl

theorem closeGroup?_append {pending : List Pending} : ∀ {left : List Pending},
    .group ∉ left → closeGroup? (left ++ .group :: pending) = some (left.map Pending.token, pending)
  | [], _ => rfl
  | .operator op :: left, h => by
    rw [List.cons_append, closeGroup?, closeGroup?_append fun hw => h (List.mem_cons_of_mem _ hw)]
    rfl
  | .function f :: left, h => by
    rw [List.cons_append, closeGroup?, closeGroup?_append fun hw => h (List.mem_cons_of_mem _ hw)]
    rfl
  | .group :: left, h => absurd List.mem_cons_self h

theorem flush_eq : ∀ {pending : List Pending}, .group ∉ pending →
    flush pending = .ok (pending.map Pending.token)
  | [], _ => rfl
  | .operator op :: pending, h => by
    rw [flush, flush_eq fun hw => h (List.mem_cons_of_mem _ hw)]
    rfl
  | .function f :: pending, h => by
    rw [flush, flush_eq fun hw => h (List.mem_cons_of_mem _ hw)]
    rfl
  | .group :: pending, h => absurd List.mem_cons_self h

theorem flush_of_group : ∀ {pending : List Pending}, .group ∈ pending →
    flush pending = .error .unclosedGroup
  | .group :: _, _ => rfl
  | .operator op :: pending, h => by
    rw [flush, flush_of_group (by simpa using h)]
    rfl
  | .function f :: pending, h => by
    rw [flush, flush_of_group (by simpa using h)]
    rfl

/-- No operator that may stand outside parentheses at the rank lets anything go. -/
def Blocks (rank : Rank) (pending : List Pending) : Prop :=
  ∀ op : Operator, rank.level ≤ op.rank.level → yieldTo op pending = ([], pending)

theorem blocks_nil (rank : Rank) : Blocks rank [] :=
  fun _ _ => rfl

theorem blocks_group (rank : Rank) (pending : List Pending) : Blocks rank (.group :: pending) :=
  fun _ _ => rfl

theorem blocks_function (rank : Rank) (f : Func) (pending : List Pending) :
    Blocks rank (.function f :: pending) :=
  fun _ _ => rfl

theorem blocks_operator (op : Operator) (pending : List Pending) :
    Blocks op.rightRank (.operator op :: pending) := by
  intro second h
  rw [yieldTo, Operator.not_precedes_of_rightRank h]
  rfl

theorem Blocks.mono {tight loose : Rank} {pending : List Pending} (h : loose.level ≤ tight.level)
    (hb : Blocks loose pending) : Blocks tight pending :=
  fun op hop => hb op (Nat.le_trans h hop)

/-- `Leaves trailing rank pending ts e`: the tokens `ts` run above `pending` and leave more waiting
there, which completes the postorder of `e`. All that is no group, and unless a bare function
trails it is made of operators at the rank. -/
def Leaves (trailing : Bool) (rank : Rank) (pending : List Pending) (ts : List Token) (e : Expr) :
    Prop :=
  ∃ out left, run pending ts = .ok (out, left ++ pending)
    ∧ out ++ left.map Pending.token = e.postorder
    ∧ Pending.group ∉ left
    ∧ (trailing = false → ∀ w ∈ left, ∃ op : Operator, w = .operator op
        ∧ rank.level ≤ op.rank.level)

theorem run_closeParen {left pending : List Pending} (h : .group ∉ left) :
    run (left ++ .group :: pending) [.closeParen]
      = .ok (left.map Pending.token ++ (closeCall pending).1, (closeCall pending).2) := by
  have hstep : step (left ++ .group :: pending) .closeParen
      = .ok (left.map Pending.token ++ (closeCall pending).1, (closeCall pending).2) := by
    simp only [step, closeGroup?_append h]
  rw [run_cons [] hstep]
  simp [run, Except.map]

/-- A closing parenthesis completes a group, and a call if a function waits in front of it. -/
theorem run_group {trailing : Bool} {rank : Rank} {pending : List Pending} {ts : List Token}
    {e : Expr} (h : Leaves trailing rank (.group :: pending) ts e) :
    run pending (.openParen :: (ts ++ [.closeParen]))
      = .ok (e.postorder ++ (closeCall pending).1, (closeCall pending).2) := by
  obtain ⟨out, left, hrun, hpost, hgroup, -⟩ := h
  have hclose : run (left ++ .group :: pending) [.closeParen] = _ := run_closeParen hgroup
  have hopen : step pending .openParen = .ok ([], .group :: pending) := rfl
  rw [run_cons _ hopen, run_append_ok hrun hclose, ← hpost]
  simp [Except.map]

/-- An operator behind its left operand takes all of that, and waits in front of the right one. -/
theorem run_operation {op : Operator} {trailing : Bool} {pending : List Pending}
    {ts us : List Token} {x y : Expr} (hp : Blocks op.rank pending)
    (hx : Leaves false op.leftRank pending ts x)
    (hy : Leaves trailing op.rightRank (.operator op :: pending) us y) :
    Leaves trailing op.rank pending (ts ++ .operator op :: us) (.operation op x y) := by
  obtain ⟨outx, leftx, hrunx, hpostx, -, hopx⟩ := hx
  obtain ⟨outy, lefty, hruny, hposty, hgroupy, hopy⟩ := hy
  have hstep : step (leftx ++ pending) (.operator op)
      = .ok (leftx.map Pending.token, .operator op :: pending) := by
    have hyield : yieldTo op (leftx ++ pending) = (leftx.map Pending.token, pending) := by
      refine yieldTo_append (hp op (Nat.le_refl _)) (fun w hw => ?_)
      obtain ⟨top, rfl, htop⟩ := hopx rfl w hw
      exact ⟨top, rfl, Operator.precedes_of_leftRank htop⟩
    simp only [step, hyield]
  have hrun : run (leftx ++ pending) (.operator op :: us)
      = .ok (leftx.map Pending.token ++ outy, lefty ++ .operator op :: pending) := by
    rw [run_cons us hstep, hruny]
    rfl
  refine ⟨outx ++ (leftx.map Pending.token ++ outy), lefty ++ [.operator op], ?_, ?_, ?_, ?_⟩
  · rw [run_append_ok hrunx hrun]
    simp
  · rw [Expr.postorder, ← hpostx, ← hposty]
    simp [Pending.token]
  · simpa using hgroupy
  · intro htrailing w hw
    rcases List.mem_append.1 hw with hw | hw
    · obtain ⟨top, rfl, htop⟩ := hopy htrailing w hw
      exact ⟨top, rfl, Nat.le_trans op.rank_le_rightRank htop⟩
    · exact ⟨op, List.mem_singleton.1 hw, Nat.le_refl _⟩

/-- What waits must not be taken by the operators among the tokens, nor be a function in front of a
group that is not its argument. -/
theorem leaves_of_writes {trailing : Bool} {rank : Rank} {ts : List Token} {e : Expr}
    (h : Writes true trailing rank ts e) : ∀ {pending : List Pending}, Blocks rank pending →
      (ts.head? = some .openParen → closeCall pending = ([], pending)) →
      Leaves trailing rank pending ts e := by
  induction h with
  | number x =>
    intro pending _ _
    exact ⟨[.number x], [], rfl, rfl, by simp, by simp⟩
  | constant k =>
    intro pending _ _
    exact ⟨[.constant k], [], rfl, rfl, by simp, by simp⟩
  | @group _ ts e _ ih =>
    intro pending _ hcall
    -- the closing parenthesis takes whatever the tokens in the group leave
    have hinner := ih (blocks_group .sum pending) fun _ => rfl
    refine ⟨e.postorder, [], ?_, by simp, by simp, by simp⟩
    rw [run_group hinner, hcall rfl]
    simp
  | @call _ ts e f _ ih =>
    intro pending _ _
    have hinner := ih (blocks_group .sum (.function f :: pending)) fun _ => rfl
    have hfunction : step pending (.function f) = .ok ([], .function f :: pending) := rfl
    refine ⟨e.postorder ++ [.function f], [], ?_, by simp [Expr.postorder], by simp, by simp⟩
    rw [run_cons _ hfunction, run_group hinner]
    rfl
  | @bareCall _ ts e f _ ungrouped _ ih =>
    intro pending _ _
    obtain ⟨out, left, hrun, hpost, hgroup, -⟩ :=
      ih (blocks_function .sum f pending) fun hhead => absurd hhead ungrouped
    have hfunction : step pending (.function f) = .ok ([], .function f :: pending) := rfl
    refine ⟨out, left ++ [.function f], ?_, ?_, by simpa using hgroup, fun h => by cases h⟩
    · rw [run_cons _ hfunction, hrun]
      simp [Except.map]
    · rw [Expr.postorder, ← hpost]
      simp [Pending.token]
  | @operation _ ts us x y op left _ ihx ihy =>
    intro pending hp hcall
    -- the left operand stands first, so a group at the beginning is its group
    refine run_operation hp (ihx (hp.mono op.rank_le_leftRank) fun hhead => hcall ?_)
      (ihy (blocks_operator op pending) fun _ => rfl)
    rw [List.head?_append, hhead]
    rfl
  | loosen h _ ih =>
    intro pending hp hcall
    obtain ⟨out, left, hrun, hpost, hgroup, hop⟩ := ih (hp.mono h) hcall
    refine ⟨out, left, hrun, hpost, hgroup, fun htrailing w hw => ?_⟩
    obtain ⟨op, rfl, hrank⟩ := hop htrailing w hw
    exact ⟨op, rfl, Nat.le_trans h hrank⟩

/-- At the end of the text nothing waits below, and all that is left goes. -/
theorem ofInfix_of_leaves {trailing : Bool} {rank : Rank} {ts : List Token} {e : Expr}
    (h : Leaves trailing rank [] ts e) : ofInfix ts = .ok e.postorder := by
  obtain ⟨out, left, hrun, hpost, hgroup, -⟩ := h
  rw [List.append_nil] at hrun
  rw [ofInfix, hrun]
  change (flush left >>= _) = _
  rw [flush_eq hgroup, ← hpost]
  rfl

/-- Tokens that write an expression have its postorder as their postfix order. -/
theorem ofInfix_eq_postorder {trailing : Bool} {ts : List Token} {e : Expr}
    (h : Writes true trailing .sum ts e) : ofInfix ts = .ok e.postorder :=
  ofInfix_of_leaves (leaves_of_writes h (blocks_nil .sum) fun _ => rfl)

/-- In `2 * (1 - 3 - 4) ^ sin 3 + 1` the bare function takes the sum, and the power and the product
close behind it. -/
theorem ofInfix_trailing_function :
    Writes true true .sum
        [.number 2, .operator .times, .openParen, .number 1, .operator .minus, .number 3,
          .operator .minus, .number 4, .closeParen, .operator .power, .function .sin, .number 3,
          .operator .plus, .number 1]
        (.operation .times (.number 2) (.operation .power
          (.operation .minus (.operation .minus (.number 1) (.number 3)) (.number 4))
          (.call .sin (.operation .plus (.number 3) (.number 1)))))
      ∧ ofInfix
        [.number 2, .operator .times, .openParen, .number 1, .operator .minus, .number 3,
          .operator .minus, .number 4, .closeParen, .operator .power, .function .sin, .number 3,
          .operator .plus, .number 1]
        = .ok [.number 2, .number 1, .number 3, .operator .minus, .number 4, .operator .minus,
          .number 3, .number 1, .operator .plus, .function .sin, .operator .power,
          .operator .times] := by
  have atom : ∀ (x : Float) (rank : Rank), Writes true false rank [.number x] (.number x) :=
    fun x rank => .loosen (by cases rank <;> decide) (.number x)
  have difference : Writes true false .sum
      ([.number 1, .operator .minus, .number 3] ++ .operator .minus :: [.number 4])
      (.operation .minus (.operation .minus (.number 1) (.number 3)) (.number 4)) :=
    .operation .minus (.operation .minus (atom 1 _) (atom 3 _)) (atom 4 _)
  have sine : Writes true true .power
      (.function .sin :: ([.number 3] ++ .operator .plus :: [.number 1]))
      (.call .sin (.operation .plus (.number 3) (.number 1))) :=
    .loosen (by decide) (.bareCall .sin rfl (by simp) (.operation .plus (atom 3 _) (atom 1 _)))
  have product := Writes.operation .times (atom 2 _) (.operation .power (.group difference) sine)
  exact ⟨.loosen (by decide) product, ofInfix_eq_postorder (.loosen (by decide) product)⟩

end Postfix

end TexCalc
