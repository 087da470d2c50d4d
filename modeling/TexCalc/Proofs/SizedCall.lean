import TexCalc.Proofs.Canonical
import TexCalc.Proofs.Groups
import TexCalc.Proofs.Translation

/-!
# Calls with sized parentheses

The rule of a call is applied before the sized delimiters become parentheses, so it passes a
function in front of `\left(`, and the last rule removes that function as it removes an unknown
command (`toCanonical_sizedCall`). What is left is the argument, whose verdict the text gets in place
of the call's. The two are the same only where the call does nothing (`sizedCall_loses_function`).
-/

namespace TexCalc

/-- The value of a text, or the family of the failure that it has none for. -/
def verdict (mode : Mode) (t : Text) : Except Failure.Family Float :=
  ((evaluate mode t).map (·.value)).mapError Failure.family

/-- The program of a text runs to its end and leaves this stack. -/
def Text.Leaves (t : Text) (stack : List Float) : Prop :=
  ∃ ts program, Token.ofText t = .ok ts ∧ Postfix.ofInfix ts = .ok program
    ∧ Machine.run [] program = .ok stack

namespace Latex

/-- `\f\left(A\right)`. -/
def sizedCall (f : Func) (argument : Text) : Text :=
  '\\' :: f.name ++ ('\\' :: "left(".toList ++ argument ++ '\\' :: "right)".toList)

section Turns

variable {rule : Rule} {opening opening' closing closing' a : Text}

theorem turns_call (f : Func) (hname : ∀ s, rule.apply (f.name ++ (opening ++ s)) = none)
    (hopening : rule.Turns opening opening') (hclosing : rule.Turns closing closing')
    (ha : ∀ c ∈ a, c ≠ '\\') :
    rule.Turns ('\\' :: f.name ++ (opening ++ a ++ closing))
      ('\\' :: f.name ++ (opening' ++ a ++ closing')) := by
  have hpass : ∀ s, rule.apply (f.name ++ (opening ++ a ++ closing) ++ s) = none := by
    intro s
    simpa using hname (a ++ closing ++ s)
  exact .pass hpass <| .append (.plain fun c hc => (name_plain f c hc).1) <|
    (hopening.append (.plain ha)).append hclosing

theorem turns_sizedCall {k : Nat} (hrule : rules[k]? = some rule) (hk : k < 3) (f : Func)
    (ha : ∀ c ∈ a, c ≠ '\\') : rule.Turns (sizedCall f a) (sizedCall f a) := by
  have hname : ∀ s, rule.apply (f.name ++ ('\\' :: "left(".toList ++ s)) = none := by
    obtain rfl | rfl | rfl : k = 0 ∨ k = 1 ∨ k = 2 := by omega
    all_goals
      cases hrule
      cases f <;> exact fun _ => rfl
  exact turns_call f hname (.pass (fun _ => apply_opening hrule hk) (.plain (by simp)))
    (.pass (fun _ => apply_closing hrule (by omega)) (.plain (by simp))) ha

end Turns

theorem toCanonical_sizedCall (f : Func) {a : Text} (ha : ∀ c ∈ a, c ≠ '\\') :
    toCanonical (sizedCall f a) = a.parenthesised := by
  have hfraction : fraction.Turns _ _ := turns_sizedCall (k := 0) rfl (by decide) f ha
  have hroot : root.Turns _ _ := turns_sizedCall (k := 1) rfl (by decide) f ha
  have hcall : call.Turns _ _ := turns_sizedCall (k := 2) rfl (by decide) f ha
  have hleft : (delimiter "left".toList '(').Turns (sizedCall f a)
      ('\\' :: f.name ++ (['('] ++ a ++ '\\' :: "right)".toList)) :=
    turns_call f (by cases f <;> exact fun _ => rfl) (.take fun _ => rfl)
      (.pass (fun _ => rfl) (.plain (by simp))) ha
  have hright : (delimiter "right".toList ')').Turns
      ('\\' :: f.name ++ (['('] ++ a ++ '\\' :: "right)".toList))
      ('\\' :: f.name ++ (['('] ++ a ++ [')'])) :=
    turns_call f (by cases f <;> exact fun _ => rfl) (.plain (by simp)) (.take fun _ => rfl) ha
  have hpi : pi.Turns ('\\' :: f.name ++ (['('] ++ a ++ [')']))
      ('\\' :: f.name ++ (['('] ++ a ++ [')'])) :=
    turns_call f (by cases f <;> exact fun _ => rfl) (.plain (by simp)) (.plain (by simp)) ha
  have hcommand : command.apply (f.name ++ (['('] ++ a ++ [')'])) = some ([], a.parenthesised) := by
    cases f <;> rfl
  have hrest : command.Turns a.parenthesised a.parenthesised :=
    .cons (by decide) (.append (.plain ha) (.plain (by simp)))
  simp only [toCanonical, rules, List.foldl_cons, List.foldl_nil, hfraction.eq, hroot.eq, hcall.eq,
    hleft.eq, hright.eq, hpi.eq]
  exact (Rule.rewrite_some hcommand).trans hrest.eq

end Latex

namespace Postfix

variable {ts : List Token}

theorem ofInfix_group (h : Closed ts) :
    ofInfix (.openParen :: (ts ++ [.closeParen])) = ofInfix ts := by
  rw [ofInfix_eq_finish, finish, run_parenthesised h]
  rcases ofInfix ts with cause | program
  · rfl
  · simp [Except.map, Except.bind, closeCall, flush]

theorem ofInfix_application (f : Func) (h : Closed ts) :
    ofInfix (.function f :: .openParen :: (ts ++ [.closeParen]))
      = (ofInfix ts).map (· ++ [.function f]) := by
  have hfunction : step [] (.function f) = .ok ([], [.function f]) := rfl
  rw [ofInfix_eq_finish, finish, run_cons _ hfunction, run_parenthesised h]
  rcases ofInfix ts with cause | program
  · rfl
  · simp [Except.map, Except.bind, closeCall, flush]

end Postfix

namespace Machine

theorem family_of_perform {f : Func} {x : Float} {cause : Failure}
    (h : f.perform x = .error cause) : cause.family = .domain := by
  unfold Func.perform at h
  split at h
  · cases h
    rfl
  · cases h

theorem value_cons {program : List Token} {x : Float} {below : List Float}
    (h : run [] program = .ok (x :: below)) : (value program).mapError Failure.family
      = if below = [] then .ok x else .error .structural := by
  rw [value, h]
  cases below <;> rfl

/-- A function at the end of a program makes no difference, but for the details of a failure, if it
finds an argument on the stack and a value for it, and if a stack of one number stays as it is. -/
theorem value_function (f : Func) (program : List Token) :
    (value program).mapError Failure.family
        = (value (program ++ [.function f])).mapError Failure.family
      ↔ ∀ stack, run [] program = .ok stack → ∃ x below y, stack = x :: below
        ∧ f.perform x = .ok y ∧ (below = [] → y = x) := by
  have hfunction : run [] (program ++ [.function f])
      = (run [] program).bind fun stack => step stack (.function f) := by
    rw [run_append]
    simp only [run_singleton]
  rcases hrun : run [] program with cause | _ | ⟨x, below⟩ <;> rw [hrun] at hfunction
  · refine iff_of_true ?_ fun stack h => by cases h
    rw [value, value, hfunction, hrun]
    rfl
  · refine iff_of_false (fun h => ?_) fun h => ?_
    · rw [value, value, hfunction, hrun] at h
      cases h
    · obtain ⟨x, below, y, hstack, -⟩ := h [] rfl
      cases hstack
  have hstep : step (x :: below) (.function f) = (f.perform x).map (· :: below) := rfl
  simp only [Except.bind, hstep] at hfunction
  rw [value_cons hrun]
  rcases hperform : f.perform x with cause | y <;> rw [hperform] at hfunction
  · refine iff_of_false (fun h => ?_) fun h => ?_
    · rw [value, hfunction] at h
      change _ = Except.error cause.family at h
      rw [family_of_perform hperform] at h
      split at h <;> cases h
    · obtain ⟨_, _, y, hstack, hvalue, -⟩ := h _ rfl
      cases hstack
      rw [hperform] at hvalue
      cases hvalue
  · rw [value_cons hfunction]
    constructor
    · rintro h stack hstack
      cases hstack
      refine ⟨x, below, y, rfl, hperform, fun hbelow => ?_⟩
      rw [if_pos hbelow, if_pos hbelow] at h
      exact (Except.ok.inj h).symm
    · intro h
      obtain ⟨_, _, _, hstack, hvalue, hsame⟩ := h _ rfl
      cases hstack
      rw [hperform] at hvalue
      cases hvalue
      split
      · next hbelow => rw [hsame hbelow]
      · rfl

end Machine

section Verdict

variable {t a : Text} {ts : List Token} {f : Func}

theorem verdict_eq_stages (mode : Mode) (t : Text) : verdict mode t
    = (((Token.ofText (mode.canonical t)).bind Postfix.ofInfix).bind Machine.value).mapError
      Failure.family := by
  rw [verdict, evaluate]
  rcases Token.ofText (mode.canonical t) with cause | ts
  · rfl
  change ((Postfix.ofInfix ts >>= _).map _).mapError _
    = ((Postfix.ofInfix ts).bind Machine.value).mapError _
  rcases Postfix.ofInfix ts with cause | program
  · rfl
  change ((Machine.value program >>= _).map _).mapError _ = (Machine.value program).mapError _
  cases Machine.value program <;> rfl

theorem verdict_of_reads (h : Reads true t ts) : verdict .ascii t
    = ((Postfix.ofInfix ts).bind Machine.value).mapError Failure.family := by
  have hread : Token.ofText t = .ok ts := h
  rw [verdict_eq_stages, Mode.canonical, hread]
  rfl

theorem verdict_of_unread (h : ∀ ts, ¬Reads true t ts) : verdict .ascii t = .error .lexical := by
  rw [verdict_eq_stages, Mode.canonical]
  rcases hread : Token.ofText t with cause | ts
  · rcases scan_error true 0 t hread with ⟨_, _, rfl⟩ | ⟨_, _, rfl⟩ <;> rfl
  · exact absurd hread (h ts)

theorem leaves_iff (h : Reads true t ts) (stack : List Float) : t.Leaves stack
    ↔ ∃ program, Postfix.ofInfix ts = .ok program ∧ Machine.run [] program = .ok stack := by
  constructor
  · rintro ⟨us, program, hus, hprogram⟩
    cases h.symm.trans hus
    exact ⟨program, hprogram⟩
  · rintro ⟨program, hprogram⟩
    exact ⟨ts, program, h, hprogram⟩

theorem exists_reads_of_group (h : Reads true a.parenthesised ts) : ∃ us, Reads true a us := by
  rw [← List.append_nil a.parenthesised, reads_parenthesised_iff] at h
  obtain ⟨us, _, hus, -⟩ := h
  exact ⟨us, hus⟩

theorem exists_reads_of_call (h : Reads true (f.name ++ a.parenthesised) ts) :
    ∃ us, Reads true a us := by
  have hfits : Token.Fits true f.name a.parenthesised (.function f) := rfl
  obtain ⟨us, hus, -⟩ := (reads_lexeme_iff (.function f) hfits).1 h
  rw [← List.append_nil a.parenthesised] at hus
  obtain ⟨inner, _, hinner, -⟩ := reads_parenthesised_iff.1 hus
  exact ⟨inner, hinner⟩

end Verdict

/-- A function in front of sized parentheses is lost: the text becomes its argument in parentheses
and has the verdict of that. It has the verdict of the call exactly where the function finds an
argument and a value for it, and where that is the last one the value is the argument. -/
theorem sizedCall_loses_function (f : Func) {a : Text} (plain : ∀ c ∈ a, c ≠ '\\')
    (matched : a.Matched) :
    Latex.toCanonical (Latex.sizedCall f a) = a.parenthesised
      ∧ verdict .latex (Latex.sizedCall f a) = verdict .ascii a
      ∧ (verdict .latex (Latex.sizedCall f a) = verdict .ascii (f.name ++ a.parenthesised)
        ↔ ∀ stack, a.Leaves stack → ∃ x below y, stack = x :: below ∧ f.perform x = .ok y
          ∧ (below = [] → y = x)) := by
  have hcanonical := Latex.toCanonical_sizedCall f plain
  have hlatex : verdict .latex (Latex.sizedCall f a) = verdict .ascii a.parenthesised := by
    rw [← hcanonical]
    rfl
  refine ⟨hcanonical, ?_⟩
  rw [hlatex]
  by_cases hread : ∃ ts, Reads true a ts
  · obtain ⟨ts, hts⟩ := hread
    have closed := closed_of_matched hts matched
    rw [verdict_of_reads hts, verdict_of_reads (hts.parenthesised true),
      verdict_of_reads (hts.call f), Postfix.ofInfix_group closed,
      Postfix.ofInfix_application f closed]
    refine ⟨rfl, ?_⟩
    simp only [leaves_iff hts]
    rcases Postfix.ofInfix ts with cause | program
    · refine iff_of_true rfl ?_
      rintro stack ⟨program, h, -⟩
      cases h
    · have hone : ∀ stack, (∃ p, (.ok program : Except Failure (List Token)) = .ok p
          ∧ Machine.run [] p = .ok stack) ↔ Machine.run [] program = .ok stack := by
        simp
      simp only [hone]
      exact Machine.value_function f program
  · have hunread : ∀ ts, ¬Reads true a ts := not_exists.1 hread
    rw [verdict_of_unread hunread, verdict_of_unread fun ts h => hread (exists_reads_of_group h),
      verdict_of_unread fun ts h => hread (exists_reads_of_call h)]
    refine ⟨rfl, iff_of_true rfl ?_⟩
    rintro stack ⟨ts, -, hts, -⟩
    exact absurd hts (hunread ts)

/-- An absolute value is not missed where the argument is positive. -/
theorem sizedCall_abs_of_positive : (∀ c ∈ "3-1".toList, c ≠ '\\') ∧ Text.Matched "3-1".toList
    ∧ verdict .latex "\\abs\\left(3-1\\right)".toList = verdict .ascii "abs(3-1)".toList := by
  have plain : ∀ c ∈ "3-1".toList, c ≠ '\\' := by simp
  have matched : Text.Matched "3-1".toList := by decide
  have hread : Token.ofText "3-1".toList = .ok [.number 3, .operator .minus, .number 1] := by
    decide +kernel
  have hrun : Machine.run [] [.number 3, .number 1, .operator .minus] = .ok [2] := by
    decide +kernel
  have habs : Func.abs.perform 2 = .ok 2 := by decide +kernel
  refine ⟨plain, matched, (sizedCall_loses_function .abs plain matched).2.2.2 ?_⟩
  rintro stack ⟨ts, program, hts, hprogram, hstack⟩
  cases hread.symm.trans hts
  cases hprogram
  cases hrun.symm.trans hstack
  exact ⟨2, [], 2, rfl, habs, fun _ => rfl⟩

/-- A square root is lost in front of sized parentheses, and with it the refusal of a negative
number, but not in front of plain ones. -/
theorem sized_root_lost :
    (Text.Matched "4".toList ∧ verdict .latex "\\sqrt\\left(4\\right)".toList = .ok 4
        ∧ verdict .latex "\\sqrt(4)".toList = .ok 2 ∧ verdict .ascii "sqrt(4)".toList = .ok 2)
      ∧ Text.Matched "0-4".toList ∧ verdict .latex "\\sqrt\\left(0-4\\right)".toList = .ok (-4)
        ∧ verdict .latex "\\sqrt(0-4)".toList = .error .domain
        ∧ verdict .ascii "sqrt(0-4)".toList = .error .domain := by
  refine ⟨⟨?_, ?_, ?_, ?_⟩, ?_, ?_, ?_, ?_⟩
  all_goals decide +kernel

end TexCalc
