import TexCalc.Proofs.Groups

/-!
# The first token out of place

How many groups are open is never counted, but as many wait as the tokens so far have opened and not
closed. So whether a token is refused can be told from the tokens in front of it (`outOfPlace_iff`),
the first one that is decides the failure, and at the end an open group does. Nothing else is asked
of the tokens: operands and operators may stand in any order. The main statement is
`ofInfix_refuses_first`.
-/

namespace TexCalc.Postfix

/-- The groups that the tokens open less those that they close. -/
def depth (ts : List Token) : Int :=
  ts.count .openParen - ts.count .closeParen

/-- `OutOfPlace front t cause`: the token `t` cannot stand behind the tokens `front`. -/
inductive OutOfPlace (front : List Token) : Token → Failure → Prop
  | unknown (name : Text) : OutOfPlace front (.unknown name) (.unknownName name)
  | unmatched (outside : depth front = 0) : OutOfPlace front .closeParen .unmatchedClose

/-- No token is out of place behind those in front of it. -/
def Orderly (ts : List Token) : Prop :=
  ∀ front t back cause, ts = front ++ t :: back → ¬OutOfPlace front t cause

/-- What is wrong with the first token that is out of place. -/
def FirstOutOfPlace (ts : List Token) (cause : Failure) : Prop :=
  ∃ front t back, ts = front ++ t :: back ∧ Orderly front ∧ OutOfPlace front t cause

section Steps

variable {pending left : List Pending} {ts front out : List Token} {t : Token} {cause : Failure}

theorem run_eq_error_iff : ∀ {ts : List Token} {pending : List Pending},
    run pending ts = .error cause ↔ ∃ front t back out left, ts = front ++ t :: back
      ∧ run pending front = .ok (out, left) ∧ step left t = .error cause
  | [], pending => by simp [run]
  | u :: us, pending => by
    rw [run_cons_eq_error_iff]
    constructor
    · rintro (hs | ⟨first, next, hs, hr⟩)
      · exact ⟨[], u, us, [], pending, rfl, rfl, hs⟩
      · obtain ⟨front, t, back, out, left, rfl, hfront, ht⟩ := run_eq_error_iff.1 hr
        refine ⟨u :: front, t, back, first ++ out, left, rfl, ?_, ht⟩
        exact run_cons_eq_ok_iff.2 ⟨first, next, out, hs, hfront, rfl⟩
    · rintro ⟨_ | ⟨v, front⟩, t, back, out, left, heq, hfront, ht⟩
      · cases heq
        cases hfront
        exact .inl ht
      · cases heq
        obtain ⟨first, next, further, hs, hr, -⟩ := run_cons_eq_ok_iff.1 hfront
        have hrest := run_eq_error_iff.2 ⟨front, t, back, further, left, rfl, hr, ht⟩
        exact .inr ⟨first, next, hs, hrest⟩

theorem count_group_of_run (h : run [] front = .ok (out, left)) :
    (left.count .group : Int) = depth front := by
  have hcount := count_run h
  rw [List.count_nil] at hcount
  rw [depth]
  omega

theorem outOfPlace_iff (h : run [] front = .ok (out, left)) :
    OutOfPlace front t cause ↔ step left t = .error cause := by
  have hdepth := count_group_of_run h
  constructor
  · rintro (_ | ⟨outside⟩)
    · rfl
    · have hgroup : .group ∉ left := List.count_eq_zero.1 (by omega)
      rw [step, closeGroup?_eq_none_iff.2 hgroup]
  · intro hstep
    cases t with
    | unknown name =>
      cases hstep
      exact .unknown name
    | closeParen =>
      rw [step] at hstep
      split at hstep <;> cases hstep
      rename_i hnone
      have hgroup := List.count_eq_zero.2 (closeGroup?_eq_none_iff.1 hnone)
      exact .unmatched (by omega)
    | _ => cases hstep

theorem exists_run_iff : (∃ out left, run [] ts = .ok (out, left)) ↔ Orderly ts := by
  constructor
  · rintro ⟨out, left, hr⟩ front t back cause rfl hplace
    rcases hfront : run [] front with cause' | ⟨first, next⟩
    · rw [run_append_error hfront] at hr
      cases hr
    · have hstep := (outOfPlace_iff hfront).1 hplace
      have herror := run_eq_error_iff.2 ⟨front, t, back, first, next, rfl, hfront, hstep⟩
      rw [herror] at hr
      cases hr
  · intro horderly
    rcases hr : run [] ts with cause | ⟨out, left⟩
    · obtain ⟨front, t, back, out, left, rfl, hfront, hstep⟩ := run_eq_error_iff.1 hr
      exact absurd ((outOfPlace_iff hfront).2 hstep) (horderly front t back cause rfl)
    · exact ⟨out, left, rfl⟩

theorem known_of_ofInfix {program : List Token} (h : ofInfix ts = .ok program) (name : Text) :
    .unknown name ∉ ts := by
  intro hmem
  obtain ⟨front, back, rfl⟩ := List.append_of_mem hmem
  obtain ⟨out, left, hrun, -⟩ := ofInfix_eq_ok_iff.1 h
  exact exists_run_iff.1 ⟨out, left, hrun⟩ front _ back _ rfl (.unknown name)

theorem run_eq_error_iff_firstOutOfPlace :
    run [] ts = .error cause ↔ FirstOutOfPlace ts cause := by
  rw [run_eq_error_iff]
  constructor
  · rintro ⟨front, t, back, out, left, rfl, hfront, hstep⟩
    exact ⟨front, t, back, rfl, exists_run_iff.1 ⟨out, left, hfront⟩,
      (outOfPlace_iff hfront).2 hstep⟩
  · rintro ⟨front, t, back, rfl, horderly, hplace⟩
    obtain ⟨out, left, hfront⟩ := exists_run_iff.2 horderly
    exact ⟨front, t, back, out, left, rfl, hfront, (outOfPlace_iff hfront).1 hplace⟩

theorem ofInfix_eq_error_iff : ofInfix ts = .error cause ↔ run [] ts = .error cause
    ∨ ∃ out left, run [] ts = .ok (out, left) ∧ .group ∈ left ∧ cause = .unclosedGroup := by
  rcases hr : run [] ts with cause' | ⟨out, left⟩
  · rw [ofInfix, hr]
    change Except.error cause' = _ ↔ _
    simp
  · rw [ofInfix, hr]
    change (flush left >>= _) = _ ↔ _
    by_cases hgroup : .group ∈ left
    · rw [flush_of_group hgroup]
      change Except.error Failure.unclosedGroup = _ ↔ _
      simp [hgroup, eq_comm]
    · rw [flush_eq hgroup]
      change Except.ok _ = _ ↔ _
      simp [hgroup]

end Steps

/-- The first unknown name, or closing parenthesis outside all groups, is refused, and a group open
at the end. All other tokens have a program, in whatever order they stand. -/
theorem ofInfix_refuses_first (ts : List Token) :
    (∀ cause, ofInfix ts = .error cause ↔ FirstOutOfPlace ts cause
        ∨ Orderly ts ∧ 0 < depth ts ∧ cause = .unclosedGroup)
      ∧ ((∃ program, ofInfix ts = .ok program) ↔ Orderly ts ∧ ¬0 < depth ts)
      ∧ (∀ name, (Failure.unknownName name).message
        = "erreur de syntaxe: ".toList ++ ("identifiant inconnu: ".toList ++ name))
      ∧ Failure.unmatchedClose.message = "erreur de syntaxe: parenthèses non appariées".toList
      ∧ Failure.unclosedGroup.message = "erreur de syntaxe: parenthèses non fermées".toList := by
  have hopen : ∀ {out left}, run [] ts = .ok (out, left) → (.group ∈ left ↔ 0 < depth ts) := by
    intro out left hr
    rw [← count_group_of_run hr, Int.natCast_pos, List.count_pos_iff]
  refine ⟨fun cause => ?_, ?_, fun _ => rfl, by decide, by decide⟩
  · rw [ofInfix_eq_error_iff, run_eq_error_iff_firstOutOfPlace, ← exists_run_iff]
    refine or_congr_right ?_
    constructor
    · rintro ⟨out, left, hr, hgroup, hcause⟩
      exact ⟨⟨out, left, hr⟩, (hopen hr).1 hgroup, hcause⟩
    · rintro ⟨⟨out, left, hr⟩, hdepth, hcause⟩
      exact ⟨out, left, hr, (hopen hr).2 hdepth, hcause⟩
  · rw [← exists_run_iff]
    constructor
    · rintro ⟨program, h⟩
      obtain ⟨out, left, hr, hgroup, -⟩ := ofInfix_eq_ok_iff.1 h
      exact ⟨⟨out, left, hr⟩, fun hdepth => hgroup ((hopen hr).2 hdepth)⟩
    · rintro ⟨⟨out, left, hr⟩, hdepth⟩
      have hgroup : .group ∉ left := fun hmem => hdepth ((hopen hr).1 hmem)
      exact ⟨_, ofInfix_eq_ok_iff.2 ⟨out, left, hr, hgroup, rfl⟩⟩

end TexCalc.Postfix
