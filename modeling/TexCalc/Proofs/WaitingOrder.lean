import Mathlib.Data.List.Chain
import TexCalc.Proofs.Refusal

/-!
# The order of what waits

A token waits on top of what an operator has let stay, and all else only takes away from the top
(`step_leaves`). So what waits are tokens in the order in which they were read, and of two operators
with nothing between them the upper one binds more tightly, or both are powers (`Pending.Outbinds`).
That is all that can be said of the stack: whatever has this order waits behind the tokens that it
consists of (`run_reverse_token`). The main statement is `waiting_ordered`.
-/

namespace TexCalc

/-- Of two operators the upper one binds more tightly than the lower one, or both are powers. -/
def Pending.Outbinds (upper lower : Pending) : Prop :=
  ∀ op below : Operator, upper = .operator op → lower = .operator below →
    below.precedence < op.precedence ∨ op = .power ∧ below = .power

namespace Operator

/-- From the top there are powers, at most one product and at most one sum. -/
def Layered (ops : List Operator) : Prop :=
  ∃ (n : Nat) (product sum : Option Operator),
    ops = List.replicate n .power ++ product.toList ++ sum.toList
      ∧ (∀ op ∈ product, op = .times ∨ op = .divide) ∧ ∀ op ∈ sum, op = .plus ∨ op = .minus

theorem not_precedes_iff {lower upper : Operator} : lower.precedes upper = false ↔
    lower.precedence < upper.precedence ∨ upper = .power ∧ lower = .power := by
  cases lower <;> cases upper <;> decide

theorem eq_power_of_not_precedes {lower upper : Operator} (hlower : ¬(lower = .plus ∨ lower = .minus))
    (h : lower.precedes upper = false) : upper = .power := by
  revert hlower h
  cases lower <;> cases upper <;> decide

theorem not_sum_of_not_precedes {lower upper : Operator} (h : lower.precedes upper = false) :
    ¬(upper = .plus ∨ upper = .minus) := by
  revert h
  cases lower <;> cases upper <;> decide

theorem times_or_divide {op : Operator} (hpower : op ≠ .power) (hsum : ¬(op = .plus ∨ op = .minus)) :
    op = .times ∨ op = .divide := by
  revert hpower hsum
  cases op <;> decide

end Operator

namespace Pending

variable {ops : List Operator}

theorem outbinds_operator {op below : Operator} :
    Outbinds (.operator op) (.operator below) ↔ below.precedes op = false := by
  rw [Operator.not_precedes_iff]
  constructor
  · intro h
    exact h op below rfl rfl
  · rintro h _ _ ⟨⟩ ⟨⟩
    exact h

theorem layered_of_isChain : ∀ {ops : List Operator},
    (ops.map Pending.operator).IsChain Outbinds → Operator.Layered ops
  | [], _ => ⟨0, none, none, rfl, by simp, by simp⟩
  | op :: ops, h => by
    rw [List.map_cons, List.isChain_cons] at h
    obtain ⟨n, product, sum, rfl, hproduct, hsum⟩ := layered_of_isChain h.2
    have hnext : ∀ below ∈ (List.replicate n Operator.power ++ product.toList ++ sum.toList).head?,
        below.precedes op = false := by
      intro below hbelow
      refine outbinds_operator.1 (h.1 _ ?_)
      rw [List.head?_map]
      exact Option.mem_map_of_mem _ hbelow
    by_cases hpower : op = .power
    · exact ⟨n + 1, product, sum, by rw [hpower]; rfl, hproduct, hsum⟩
    obtain rfl : n = 0 := by
      rcases n with _ | n
      · rfl
      · exact absurd (Operator.eq_power_of_not_precedes (by decide) (hnext .power rfl)) hpower
    obtain rfl : product = none := by
      rcases product with _ | below
      · rfl
      · have hbelow : ¬(below = .plus ∨ below = .minus) := by
          rcases hproduct below rfl with rfl | rfl <;> decide
        exact absurd (Operator.eq_power_of_not_precedes hbelow (hnext below rfl)) hpower
    by_cases hop : op = .plus ∨ op = .minus
    · obtain rfl : sum = none := by
        rcases sum with _ | below
        · rfl
        · exact absurd hop (Operator.not_sum_of_not_precedes (hnext below rfl))
      exact ⟨0, none, some op, rfl, by simp, by simpa using hop⟩
    · refine ⟨0, some op, sum, rfl, ?_, hsum⟩
      rintro _ ⟨⟩
      exact Operator.times_or_divide hpower hop

end Pending

namespace Postfix

open scoped List

variable {pending left : List Pending} {ts out : List Token}

/-- An operator binds more tightly than what lets nothing go to it. -/
theorem yieldTo_eq_self_iff {op : Operator} : yieldTo op pending = ([], pending)
    ↔ ∀ w ∈ pending.head?, Pending.Outbinds (.operator op) w := by
  rcases pending with _ | ⟨top | f | _, below⟩
  · exact iff_of_true rfl (by rintro _ ⟨⟩)
  · have hhead : (∀ w ∈ (Pending.operator top :: below).head?, Pending.Outbinds (.operator op) w)
        ↔ top.precedes op = false := by
      simp [Pending.outbinds_operator]
    rw [hhead, yieldTo]
    rcases top.precedes op with _ | _ <;> simp
  · exact iff_of_true rfl (by rintro _ ⟨⟩ _ _ _ ⟨⟩)
  · exact iff_of_true rfl (by rintro _ ⟨⟩ _ _ _ ⟨⟩)

/-- Behind a token there waits what is left of the stack, and on top of that the token if it waits
itself. -/
theorem step_leaves {t : Token} (h : step pending t = .ok (out, left)) : left <:+ pending
    ∨ ∃ w below, left = w :: below ∧ w.token = t ∧ below <:+ pending
      ∧ ∀ v ∈ below.head?, w.Outbinds v := by
  cases effect_of_step h with
  | pass => exact .inl (List.suffix_refl _)
  | @wait gone below w _ stays =>
    refine .inr ⟨w, below, rfl, rfl, List.suffix_append _ _, fun v hv => ?_⟩
    rintro op lower rfl
    exact yieldTo_eq_self_iff.1 (stays op rfl) v hv op lower rfl
  | @close inner call left =>
    refine .inl ⟨inner ++ .group :: call, ?_⟩
    simp

theorem isChain_step {t : Token} (h : step pending t = .ok (out, left))
    (hpending : pending.IsChain Pending.Outbinds) : left.IsChain Pending.Outbinds := by
  rcases step_leaves h with hsuffix | ⟨w, below, rfl, -, hsuffix, htop⟩
  · exact hpending.suffix hsuffix
  · exact List.isChain_cons.2 ⟨htop, hpending.suffix hsuffix⟩

theorem sublist_step {t : Token} (h : step pending t = .ok (out, left)) :
    (left.map Pending.token).reverse <+ (pending.map Pending.token).reverse ++ [t] := by
  have hstack : ∀ {below : List Pending}, below <:+ pending →
      (below.map Pending.token).reverse <+ (pending.map Pending.token).reverse := fun hsuffix =>
    (hsuffix.sublist.map Pending.token).reverse
  rcases step_leaves h with hsuffix | ⟨w, below, rfl, rfl, hsuffix, -⟩
  · exact (hstack hsuffix).trans (List.sublist_append_left _ _)
  · rw [List.map_cons, List.reverse_cons]
    exact (hstack hsuffix).append_right _

theorem isChain_run {ts : List Token} : ∀ {pending left : List Pending} {out : List Token},
    run pending ts = .ok (out, left) → pending.IsChain Pending.Outbinds →
      left.IsChain Pending.Outbinds := by
  induction ts with
  | nil =>
    intro pending left out h hpending
    cases h
    exact hpending
  | cons t ts ih =>
    intro pending left out h hpending
    obtain ⟨first, next, further, hs, hr, -⟩ := run_cons_eq_ok_iff.1 h
    exact ih hr (isChain_step hs hpending)

/-- What waits has been read in the order in which it waits, from the bottom of the stack. -/
theorem sublist_run {ts : List Token} : ∀ {pending left : List Pending} {out : List Token},
    run pending ts = .ok (out, left) →
      (left.map Pending.token).reverse <+ (pending.map Pending.token).reverse ++ ts := by
  induction ts with
  | nil =>
    intro pending left out h
    cases h
    rw [List.append_nil]
  | cons t ts ih =>
    intro pending left out h
    obtain ⟨first, next, further, hs, hr, -⟩ := run_cons_eq_ok_iff.1 h
    rw [List.append_cons]
    exact (ih hr).trans ((sublist_step hs).append_right ts)

/-- Tokens that may wait in their order all wait. -/
theorem run_reverse_token : ∀ {left : List Pending}, left.IsChain Pending.Outbinds →
    run [] (left.map Pending.token).reverse = .ok ([], left)
  | [], _ => rfl
  | w :: below, h => by
    obtain ⟨htop, hbelow⟩ := List.isChain_cons.1 h
    have hstep : step below w.token = .ok ([], w :: below) := by
      cases w with
      | operator op =>
        rw [Pending.token, step, yieldTo_eq_self_iff.2 htop]
      | function f => rfl
      | group => rfl
    rw [List.map_cons, List.reverse_cons]
    exact run_append_ok (run_reverse_token hbelow)
      (run_cons_eq_ok_iff.2 ⟨[], w :: below, [], hstep, rfl, rfl⟩)

/-- Behind any tokens there wait tokens of theirs in their order: operators, functions, and as many
parentheses as are open. An operator directly above another one binds more tightly, or both are
powers, so of the operators between two functions or parentheses the lowest may be a sum, the next
one a product, and all others are powers. Whatever is in this order waits behind some tokens. -/
theorem waiting_ordered :
    (∀ front out left, run [] front = .ok (out, left) →
      (left.map Pending.token).reverse <+ front
        ∧ (∀ t ∈ left.map Pending.token,
          (∃ op, t = .operator op) ∨ (∃ f, t = .function f) ∨ t = .openParen)
        ∧ (left.count .group : Int) = depth front
        ∧ left.IsChain Pending.Outbinds
        ∧ ∀ above ops below, left = above ++ ops.map Pending.operator ++ below →
          Operator.Layered ops)
      ∧ ∀ left, left.IsChain Pending.Outbinds →
        run [] (left.map Pending.token).reverse = .ok ([], left) := by
  refine ⟨fun front out left h => ?_, fun left => run_reverse_token⟩
  have hchain := isChain_run h .nil
  refine ⟨sublist_run h, fun t ht => ?_, count_group_of_run h, hchain, ?_⟩
  · obtain ⟨w, -, rfl⟩ := List.mem_map.1 ht
    cases w with
    | operator op => exact .inl ⟨op, rfl⟩
    | function f => exact .inr (.inl ⟨f, rfl⟩)
    | group => exact .inr (.inr rfl)
  · rintro above ops below rfl
    obtain ⟨hfront, -, -⟩ := List.isChain_append.1 hchain
    obtain ⟨-, hops, -⟩ := List.isChain_append.1 hfront
    exact Pending.layered_of_isChain hops

/-- In `* ^ ln ( + * - / ^ ^` the difference lets the product and the sum in its group go, and only
those. Nothing has gone to the function and the operators in front of it. -/
theorem waiting_ordered_group :
    run [] [.operator .times, .operator .power, .function .ln, .openParen, .operator .plus,
        .operator .times, .operator .minus, .operator .divide, .operator .power, .operator .power]
        = .ok ([.operator .times, .operator .plus],
          [.operator .power, .operator .power, .operator .divide, .operator .minus, .group,
            .function .ln, .operator .power, .operator .times])
      ∧ [Pending.operator .power, .operator .power, .operator .divide, .operator .minus, .group,
        .function .ln, .operator .power, .operator .times].IsChain Pending.Outbinds
      ∧ Operator.Layered [.power, .power, .divide, .minus]
      ∧ Operator.Layered [.power, .times] := by
  have h := waiting_ordered.1 [.operator .times, .operator .power, .function .ln, .openParen,
    .operator .plus, .operator .times, .operator .minus, .operator .divide, .operator .power,
    .operator .power] _ _ rfl
  obtain ⟨-, -, -, hchain, hlayered⟩ := h
  exact ⟨rfl, hchain, hlayered [] _ _ rfl, hlayered [_, _, _, _, _, _] _ [] rfl⟩

end Postfix

end TexCalc
