import TexCalc.Proofs.Infix

/-!
# What a token does to what waits

A value goes at once, and all other tokens that can stand anywhere wait, or close a group. What they
let go has been on top of the stack, and there is no group in it but the one that is closed
(`effect_of_step`). What is preserved by every token is read off these three cases.
-/

namespace TexCalc.Postfix

section Splits

variable {pending left : List Pending} {out : List Token}

/-- An operator lets the top of the stack go, and would let nothing of the rest go. -/
theorem yieldTo_splits (op : Operator) : ∀ pending : List Pending, ∃ gone below,
    pending = gone ++ below ∧ .group ∉ gone ∧ yieldTo op pending = (gone.map Pending.token, below)
      ∧ yieldTo op below = ([], below)
  | [] => ⟨[], [], rfl, List.not_mem_nil, rfl, rfl⟩
  | .function f :: below => ⟨[], _, rfl, List.not_mem_nil, rfl, rfl⟩
  | .group :: below => ⟨[], _, rfl, List.not_mem_nil, rfl, rfl⟩
  | .operator top :: below => by
    rcases hprecedes : top.precedes op with _ | _
    · have hstays : yieldTo op (.operator top :: below) = ([], .operator top :: below) := by
        rw [yieldTo, hprecedes]
        rfl
      exact ⟨[], _, rfl, List.not_mem_nil, hstays, hstays⟩
    · obtain ⟨gone, rest, rfl, hgroup, hyield, hrest⟩ := yieldTo_splits op below
      refine ⟨.operator top :: gone, rest, rfl, ?_, ?_, hrest⟩
      · simpa using hgroup
      · rw [yieldTo, if_pos hprecedes, hyield]
        rfl

/-- A closing parenthesis lets all go that waits above the innermost group. -/
theorem closeGroup?_splits : ∀ {pending : List Pending} {out : List Token},
    closeGroup? pending = some (out, left) → ∃ inner, pending = inner ++ .group :: left
      ∧ .group ∉ inner ∧ out = inner.map Pending.token
  | .group :: _, _, h => by
    cases h
    exact ⟨[], rfl, List.not_mem_nil, rfl⟩
  | .operator op :: below, _, h => by
    obtain ⟨⟨further, rest⟩, hrest, heq⟩ := Option.map_eq_some_iff.1 h
    cases heq
    obtain ⟨inner, rfl, hgroup, rfl⟩ := closeGroup?_splits hrest
    exact ⟨.operator op :: inner, rfl, by simpa using hgroup, rfl⟩
  | .function f :: below, _, h => by
    obtain ⟨⟨further, rest⟩, hrest, heq⟩ := Option.map_eq_some_iff.1 h
    cases heq
    obtain ⟨inner, rfl, hgroup, rfl⟩ := closeGroup?_splits hrest
    exact ⟨.function f :: inner, rfl, by simpa using hgroup, rfl⟩

theorem closeGroup?_eq_none_iff : ∀ {pending : List Pending},
    closeGroup? pending = none ↔ .group ∉ pending
  | [] => by simp [closeGroup?]
  | .group :: _ => by simp [closeGroup?]
  | .operator _ :: below => by simp [closeGroup?, @closeGroup?_eq_none_iff below]
  | .function _ :: below => by simp [closeGroup?, @closeGroup?_eq_none_iff below]

theorem closeCall_splits : ∀ pending : List Pending, ∃ call left,
    pending = call ++ left ∧ .group ∉ call ∧ closeCall pending = (call.map Pending.token, left)
  | [] => ⟨[], [], rfl, List.not_mem_nil, rfl⟩
  | .function f :: below => ⟨[.function f], below, rfl, by simp, rfl⟩
  | .operator op :: below => ⟨[], _, rfl, List.not_mem_nil, rfl⟩
  | .group :: below => ⟨[], _, rfl, List.not_mem_nil, rfl⟩

end Splits

/-- `Effect pending t out left`: while `pending` waits, the token `t` lets `out` go and leaves
`left` waiting. -/
inductive Effect : List Pending → Token → List Token → List Pending → Prop
  | pass {pending : List Pending} {t : Token} (value : t.kind = .number) :
      Effect pending t [t] pending
  | wait {gone below : List Pending} {w : Pending} (noGroup : .group ∉ gone)
      (stays : ∀ op, w = .operator op → yieldTo op below = ([], below)) :
      Effect (gone ++ below) w.token (gone.map Pending.token) (w :: below)
  | close {inner call left : List Pending} (innermost : .group ∉ inner) (noGroup : .group ∉ call) :
      Effect (inner ++ .group :: (call ++ left)) .closeParen ((inner ++ call).map Pending.token) left

variable {pending left : List Pending} {t : Token} {out : List Token}

theorem effect_of_step (h : step pending t = .ok (out, left)) : Effect pending t out left := by
  cases t with
  | number x =>
    cases h
    exact .pass rfl
  | constant k =>
    cases h
    exact .pass rfl
  | function f =>
    cases h
    exact @Effect.wait [] pending (.function f) List.not_mem_nil (by rintro _ ⟨⟩)
  | openParen =>
    cases h
    exact @Effect.wait [] pending .group List.not_mem_nil (by rintro _ ⟨⟩)
  | operator op =>
    obtain ⟨gone, below, rfl, hgroup, hyield, hstays⟩ := yieldTo_splits op pending
    rw [step, hyield] at h
    cases h
    refine .wait (w := .operator op) hgroup ?_
    rintro _ ⟨⟩
    exact hstays
  | closeParen =>
    rw [step] at h
    split at h
    · cases h
    rename_i inner below hclose
    obtain ⟨inner, rfl, hinner, rfl⟩ := closeGroup?_splits hclose
    obtain ⟨call, rest, rfl, hcall, hleft⟩ := closeCall_splits below
    rw [hleft] at h
    cases h
    rw [← List.map_append]
    exact .close hinner hcall
  | unknown name => cases h

theorem step_error {cause : Failure} (h : step pending t = .error cause) :
    cause = .unmatchedClose ∨ ∃ name, cause = .unknownName name := by
  cases t with
  | closeParen =>
    rw [step] at h
    split at h <;> cases h
    exact .inl rfl
  | unknown name =>
    cases h
    exact .inr ⟨name, rfl⟩
  | _ => cases h

end TexCalc.Postfix
