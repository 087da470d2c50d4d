import TexCalc.Proofs.Groups

/-!
# Which tokens write an expression

Tokens write an expression if and only if their parentheses match, their names are known, and no
operand is missing and none too many (`writes_iff`). For then an operator between two expressions
makes one of them, whatever binds more tightly (`Writes.join`), because the last operand of the left
one can be handed to it (`Writes.extend`); so each group is found from its beginning, one operand
after the other (`beginsGroup_of_inOrder`).
-/

namespace TexCalc

namespace Token

/-- Whether an operand begins with the token, if only with the function in front of its argument. -/
def beginsOperand : Token → Bool
  | .operator _ | .closeParen => false
  | _ => true

/-- Whether an operand is complete behind the token. -/
def completesOperand : Token → Bool
  | .number _ | .constant _ | .unknown _ | .closeParen => true
  | _ => false

end Token

/-- How many operands begin directly behind a complete one; `completed` tells whether one is
complete in front of the tokens. -/
def extraOperands (completed : Bool) : List Token → Nat
  | [] => 0
  | t :: ts => (completed && t.beginsOperand).toNat + extraOperands t.completesOperand ts

/-- How many operators, closing parentheses and ends have no complete operand in front of them. -/
def missingOperands (completed : Bool) : List Token → Nat
  | [] => (!completed).toNat
  | t :: ts => (!completed && !t.beginsOperand).toNat + missingOperands t.completesOperand ts

/-- `InOrder completed depth ts`: behind an operand, or behind none, operands and operators
alternate in the tokens, the last one completes an operand, and together with `depth` groups that
are open in front of them all groups are closed. A function is followed by its argument. -/
inductive InOrder : Bool → Nat → List Token → Prop
  | nil : InOrder true 0 []
  | number {depth : Nat} {ts : List Token} (x : Float) (rest : InOrder true depth ts) :
      InOrder false depth (.number x :: ts)
  | constant {depth : Nat} {ts : List Token} (k : Constant) (rest : InOrder true depth ts) :
      InOrder false depth (.constant k :: ts)
  | function {depth : Nat} {ts : List Token} (f : Func) (rest : InOrder false depth ts) :
      InOrder false depth (.function f :: ts)
  | openParen {depth : Nat} {ts : List Token} (rest : InOrder false (depth + 1) ts) :
      InOrder false depth (.openParen :: ts)
  | operator {depth : Nat} {ts : List Token} (op : Operator) (rest : InOrder false depth ts) :
      InOrder true depth (.operator op :: ts)
  | closeParen {depth : Nat} {ts : List Token} (rest : InOrder true depth ts) :
      InOrder true (depth + 1) (.closeParen :: ts)

theorem Operator.rightRank_le_of_not_leftRank_le {left op : Operator}
    (h : ¬op.leftRank.level ≤ left.rank.level) : left.rightRank.level ≤ op.rank.level := by
  cases left <;> cases op <;> revert h <;> decide

theorem Rank.level_le_atom (rank : Rank) : rank.level ≤ Rank.atom.level := by
  cases rank <;> decide

namespace Writes

variable {trailing : Bool} {ts us : List Token} {x y : Expr}

/-- One more operator and operand: the operator takes the last operand that it may take of the
expression in front of it. -/
theorem extend {closed : Bool} {rank : Rank} (h : Writes true closed rank ts x)
    (hclosed : closed = false) (op : Operator) (hus : Writes true trailing .atom us y) :
    ∀ loose : Rank, loose.level ≤ rank.level → loose.level ≤ op.rank.level →
      ∃ e, Writes true trailing loose (ts ++ .operator op :: us) e := by
  have hright : Writes true trailing op.rightRank us y := .loosen (Rank.level_le_atom _) hus
  -- an operand outside which there is no operator is taken whole
  have whole : ∀ {ts : List Token} {x : Expr} {rank loose : Rank}, Writes true false rank ts x →
      op.leftRank.level ≤ rank.level → loose.level ≤ op.rank.level →
      ∃ e, Writes true trailing loose (ts ++ .operator op :: us) e :=
    fun hx hleft hloose => ⟨_, .loosen hloose (.operation op (.loosen hleft hx) hright)⟩
  induction h with
  | number x => exact fun _ _ => whole (.number x) (Rank.level_le_atom _)
  | constant k => exact fun _ _ => whole (.constant k) (Rank.level_le_atom _)
  | group inner => exact fun _ _ => whole (.group inner) (Rank.level_le_atom _)
  | call f argument => exact fun _ _ => whole (.call f argument) (Rank.level_le_atom _)
  | bareCall => cases hclosed
  | @operation _ ts us' x' y' first left right _ ih =>
    subst hclosed
    intro loose hfirst hop
    by_cases htakes : op.leftRank.level ≤ first.rank.level
    · exact whole (.operation first left right) htakes hop
    · obtain ⟨e, he⟩ := ih rfl _ (Nat.le_refl _) (Operator.rightRank_le_of_not_leftRank_le htakes)
      have hboth := Writes.loosen hfirst (.operation first left he)
      exact ⟨_, by simpa using hboth⟩
  | loosen h _ ih => exact fun loose hloose => ih hclosed loose (Nat.le_trans hloose h)

/-- An operator between two expressions makes one expression. -/
theorem join {rank : Rank} (hy : Writes true trailing rank us y) : ∀ {ts : List Token} {x : Expr},
    Writes true false .sum ts x → ∀ op : Operator,
      ∃ e, Writes true trailing .sum (ts ++ .operator op :: us) e := by
  have atom : ∀ {trailing : Bool} {us : List Token} {y : Expr}, Writes true trailing .atom us y →
      ∀ {ts : List Token} {x : Expr}, Writes true false .sum ts x → ∀ op : Operator,
      ∃ e, Writes true trailing .sum (ts ++ .operator op :: us) e :=
    fun hy _ _ hx op => hx.extend rfl op hy .sum (Nat.zero_le _) (Nat.zero_le _)
  induction hy with
  | number x => exact atom (.number x)
  | constant k => exact atom (.constant k)
  | group inner => exact atom (.group inner)
  | call f argument => exact atom (.call f argument)
  | bareCall f allowed ungrouped argument => exact atom (.bareCall f allowed ungrouped argument)
  | @operation _ us us' _ _ second _ _ ihleft ihright =>
    -- the left operand of the second operator is joined before the right one
    intro ts x hx op
    obtain ⟨e, he⟩ := ihleft hx op
    simpa using ihright he second
  | loosen _ _ ih => exact ih

end Writes

/-- Where the tokens of a group end: with the text, or with the parenthesis that closes it. -/
inductive GroupEnds : Nat → List Token → Prop
  | text : GroupEnds 0 []
  | closeParen {depth : Nat} {ts : List Token} (rest : InOrder true depth ts) :
      GroupEnds (depth + 1) (.closeParen :: ts)

/-- The tokens begin with all of a group, which is an expression. -/
def BeginsGroup (depth : Nat) (ts : List Token) : Prop :=
  ∃ us rest trailing e, ts = us ++ rest ∧ Writes true trailing .sum us e ∧ GroupEnds depth rest

section Groups

variable {depth : Nat} {ts us : List Token} {x : Expr}

theorem beginsGroup_of_operand (hx : Writes true false .sum us x) (h : InOrder true depth ts)
    (hrest : ∀ {vs : List Token} {depth : Nat}, vs.length < ts.length → InOrder false depth vs →
      BeginsGroup depth vs) : BeginsGroup depth (us ++ ts) := by
  cases h with
  | nil => exact ⟨us, [], false, x, rfl, hx, .text⟩
  | operator op further =>
    obtain ⟨vs, rest, trailing, y, rfl, hy, hends⟩ := hrest (Nat.lt_succ_self _) further
    obtain ⟨e, he⟩ := hy.join hx op
    exact ⟨_, rest, trailing, e, by simp, he, hends⟩
  | closeParen further => exact ⟨us, _, false, x, rfl, hx, .closeParen further⟩

theorem group_of_beginsGroup (h : BeginsGroup (depth + 1) ts) :
    ∃ us rest trailing e, ts = us ++ .closeParen :: rest ∧ Writes true trailing .sum us e
      ∧ InOrder true depth rest := by
  obtain ⟨us, _, trailing, e, rfl, he, _ | further⟩ := h
  exact ⟨us, _, trailing, e, rfl, he, further⟩

theorem beginsGroup_of_inOrder : ∀ {depth : Nat} (ts : List Token), InOrder false depth ts →
    BeginsGroup depth ts := by
  intro depth ts h
  have shorter : ∀ {vs : List Token} {depth : Nat}, vs.length < ts.length →
      InOrder false depth vs → BeginsGroup depth vs := fun _ hvs => beginsGroup_of_inOrder _ hvs
  cases h with
  | number x rest =>
    have hwrites : Writes true false .sum [.number x] (.number x) :=
      .loosen (Nat.zero_le _) (.number x)
    exact beginsGroup_of_operand hwrites rest fun hvs => shorter (Nat.lt_succ_of_lt hvs)
  | constant k rest =>
    have hwrites : Writes true false .sum [.constant k] (.constant k) :=
      .loosen (Nat.zero_le _) (.constant k)
    exact beginsGroup_of_operand hwrites rest fun hvs => shorter (Nat.lt_succ_of_lt hvs)
  | openParen inside =>
    obtain ⟨us, rest, trailing, e, rfl, he, hrest⟩ :=
      group_of_beginsGroup (shorter (Nat.lt_succ_self _) inside)
    have hgroup := beginsGroup_of_operand (.loosen (Nat.zero_le _) (.group he)) hrest
      fun hvs => shorter (by simp only [List.length_cons, List.length_append]; omega)
    simpa using hgroup
  | @function _ vs f argument =>
    by_cases hhead : vs.head? = some .openParen
    · cases argument with
      | openParen inside =>
        obtain ⟨us, rest, trailing, e, rfl, he, hrest⟩ :=
          group_of_beginsGroup (shorter (by simp only [List.length_cons]; omega) inside)
        have hcall := beginsGroup_of_operand (.loosen (Nat.zero_le _) (.call f he)) hrest
          fun hvs => shorter (by simp only [List.length_cons, List.length_append]; omega)
        simpa using hcall
      | _ => cases hhead
    · obtain ⟨us, rest, trailing, e, rfl, he, hends⟩ := shorter (Nat.lt_succ_self _) argument
      have hungrouped : us.head? ≠ some .openParen := by
        intro hus
        rw [List.head?_append, hus] at hhead
        exact hhead rfl
      have hcall := Writes.bareCall f rfl hungrouped he
      exact ⟨_, rest, true, _, by simp, .loosen (Nat.zero_le _) hcall, hends⟩
termination_by _ ts => ts.length

theorem writes_of_inOrder (h : InOrder false 0 ts) :
    ∃ trailing e, Writes true trailing .sum ts e := by
  obtain ⟨us, rest, trailing, e, rfl, he, hends⟩ := beginsGroup_of_inOrder ts h
  cases hends
  exact ⟨trailing, e, by simpa using he⟩

end Groups

section Misplaced

variable {ts : List Token} {e : Expr}

theorem Writes.completes {bare trailing : Bool} {rank : Rank} (h : Writes bare trailing rank ts e) :
    ∀ us : List Token, extraOperands false (ts ++ us) = extraOperands true us
      ∧ missingOperands false (ts ++ us) = missingOperands true us := by
  induction h with
  | number | constant =>
    intro us
    simp [extraOperands, missingOperands, Token.beginsOperand, Token.completesOperand]
  | group _ ih | call _ _ ih =>
    intro us
    simp [extraOperands, missingOperands, Token.beginsOperand, Token.completesOperand, ih]
  | bareCall f _ _ _ ih =>
    intro us
    simp [extraOperands, missingOperands, Token.beginsOperand, Token.completesOperand, ih]
  | operation op _ _ ihx ihy =>
    intro us
    simp [extraOperands, missingOperands, Token.beginsOperand, Token.completesOperand, ihx, ihy]
  | loosen _ _ ih => exact ih

theorem inOrder_of_none_misplaced : ∀ {ts : List Token} {completed : Bool} {depth : Nat},
    (∀ name, .unknown name ∉ ts) → extraOperands completed ts = 0 →
    missingOperands completed ts = 0 →
    (∀ us, us <+: ts → us.count .closeParen ≤ depth + us.count .openParen) →
    ts.count .closeParen = depth + ts.count .openParen → InOrder completed depth ts
  | [], completed, depth, _, _, hmissing, _, hwhole => by
    obtain rfl : completed = true := by simpa [missingOperands] using hmissing
    obtain rfl : depth = 0 := by simpa using hwhole.symm
    exact .nil
  | t :: ts, completed, depth, hknown, hextra, hmissing, hinside, hwhole => by
    have ih : ∀ {behind : Nat}, behind + [t].count .closeParen = depth + [t].count .openParen →
        InOrder t.completesOperand behind ts := by
      intro behind hbehind
      refine inOrder_of_none_misplaced
        (fun name hname => hknown name (List.mem_cons_of_mem _ hname))
        (Nat.eq_zero_of_add_eq_zero_left hextra) (Nat.eq_zero_of_add_eq_zero_left hmissing) ?_ ?_
      · intro us hus
        have hlong := hinside (t :: us) ((List.prefix_cons_inj t).2 hus)
        rw [← List.singleton_append, List.count_append, List.count_append] at hlong
        omega
      · rw [← List.singleton_append, List.count_append, List.count_append] at hwhole
        omega
    obtain rfl : completed = !t.beginsOperand := by
      have hbegins := Nat.eq_zero_of_add_eq_zero_right hextra
      have hends := Nat.eq_zero_of_add_eq_zero_right hmissing
      cases completed <;> cases h : t.beginsOperand <;> simp [h] at hbegins hends ⊢
    cases t with
    | number x => exact .number x (ih (by simp))
    | constant k => exact .constant k (ih (by simp))
    | operator op => exact .operator op (ih (by simp))
    | function f => exact .function f (ih (by simp))
    | unknown name => exact absurd List.mem_cons_self (hknown name)
    | openParen => exact .openParen (ih (by simp))
    | closeParen =>
      have hopen := hinside [.closeParen] (List.prefix_append _ ts)
      rcases depth with _ | depth
      · simp at hopen
      · exact .closeParen (ih (by simp))

theorem Writes.known {bare trailing : Bool} {rank : Rank} (h : Writes bare trailing rank ts e)
    (name : Text) : .unknown name ∉ ts := by
  induction h with
  | number | constant => simp
  | group _ ih | call _ _ ih => simpa using ih
  | bareCall _ _ _ _ ih => simpa using ih
  | operation _ _ _ ihx ihy => simpa using ⟨ihx, ihy⟩
  | loosen _ _ ih => exact ih

theorem Writes.ofInfix_eq {trailing : Bool} {rank : Rank} (h : Writes true trailing rank ts e) :
    Postfix.ofInfix ts = .ok e.postorder :=
  Postfix.ofInfix_of_leaves (Postfix.leaves_of_writes h (Postfix.blocks_nil rank) fun _ => rfl)

/-- Tokens write an expression if operands and operators alternate between matching parentheses. -/
theorem writes_iff : (∃ trailing e, Writes true trailing .sum ts e) ↔ Postfix.Closed ts
    ∧ (∀ name, .unknown name ∉ ts) ∧ extraOperands false ts = 0 ∧ missingOperands false ts = 0 := by
  constructor
  · rintro ⟨trailing, e, h⟩
    obtain ⟨hextra, hmissing⟩ := h.completes []
    rw [List.append_nil] at hextra hmissing
    exact ⟨Postfix.closed_of_ofInfix h.ofInfix_eq, h.known, hextra, hmissing⟩
  · rintro ⟨⟨hinside, hwhole⟩, hknown, hextra, hmissing⟩
    exact writes_of_inOrder (inOrder_of_none_misplaced hknown hextra hmissing
      (by simpa using hinside) (by simpa using hwhole))

end Misplaced

end TexCalc
