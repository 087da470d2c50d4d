import Mathlib.Data.List.Infix
import TexCalc.Proofs.Canonical
import TexCalc.Proofs.Translation

/-!
# Removing an unknown command

The last rule removes a command with all the letters behind it, and by then the macros behind the
command have lost their backslashes. Until then a rule writes nothing there that begins with a
letter but a function and its parenthesis (`Begins.rewrite`), so that the command keeps its name and
is passed by the rules (`IsUnknown`), unless a root behind it makes another function of its last
letters and its own first one. The command alone is removed exactly where what is made of the text
behind it begins with no letter (`toCanonical_unknown`).
-/

namespace TexCalc.Latex

/-- The names of the commands that are no functions. -/
def reserved : List Text :=
  ["frac".toList, "left".toList, "right".toList, "pi".toList]

theorem isAlpha_of_reserved {word : Text} (h : word ∈ reserved) : ∀ c ∈ word, c.isAlpha = true :=
  List.all_eq_true.1 (List.all_eq_true.1 (rfl : reserved.all (·.all Char.isAlpha) = true) word h)

theorem not_suffix_reserved (f : Func) : ∀ word ∈ reserved, ¬f.name <:+ word := by
  cases f <;> decide

/-- The name of a command that no rule but the last one takes up. -/
structure IsUnknown (name : Text) : Prop where
  nonempty : name ≠ []
  letters : ∀ c ∈ name, c.isAlpha = true
  notReserved : name ∉ reserved
  noFunction : ∀ f : Func, ¬f.name <+: name

/-- The text begins with no letter, or with one of the functions and its parenthesis. -/
def Begins (fs : List Func) (t : Text) : Prop :=
  t.head?.any Char.isAlpha = false ∨ ∃ f ∈ fs, ∃ rest, t = f.name ++ '(' :: rest

namespace Begins

variable {fs gs : List Func} {rule : Rule} {t : Text}

/-- What a rule leaves of such a text is such a text, if what it writes is. -/
theorem rewrite (h : Begins fs t) (hsub : fs ⊆ gs)
    (hnew : ∀ {t new left s : Text}, rule.apply t = some (new, left) → Begins gs (new ++ s)) :
    Begins gs (rule.rewrite t) := by
  rcases h with h | ⟨f, hf, rest, rfl⟩
  · cases t with
    | nil =>
      rw [Rule.rewrite_nil]
      exact .inl rfl
    | cons c t =>
      by_cases hc : c = '\\'
      · subst hc
        rcases happly : rule.apply t with _ | ⟨new, left⟩
        · rw [Rule.rewrite_none happly]
          exact .inl rfl
        · rw [Rule.rewrite_some happly]
          exact hnew happly
      · rw [Rule.rewrite_cons hc]
        exact .inl h
  · have hname : rule.Turns f.name f.name := .plain fun c hc => (name_plain f c hc).1
    rw [hname, Rule.rewrite_cons (by decide)]
    exact .inr ⟨f, hsub hf, _, rfl⟩

end Begins

section Written

variable {t new left s : Text}

theorem begins_fraction (h : fraction.apply t = some (new, left)) : Begins [] (new ++ s) := by
  obtain ⟨above, below, _, _, -, -, -, rfl⟩ := fraction_apply_iff.1 h
  exact .inl rfl

theorem begins_root (h : root.apply t = some (new, left)) : Begins [.sqrt] (new ++ s) := by
  obtain ⟨argument, _, -, -, rfl⟩ := root_apply_iff.1 h
  exact .inr ⟨.sqrt, by simp, argument ++ [')'] ++ s, by simp [Func.name]⟩

theorem begins_call (h : call.apply t = some (new, left)) : Begins Func.all (new ++ s) := by
  obtain ⟨f, argument, _, rfl, -⟩ := call_apply h
  exact .inr ⟨f, by cases f <;> decide, argument ++ [')'] ++ s, by simp⟩

theorem Begins.delimiter (h : Begins Func.all t) (name : Text) {paren : Char}
    (hparen : paren.isAlpha = false) : Begins Func.all ((delimiter name paren).rewrite t) := by
  refine h.rewrite (fun _ h => h) fun {t new left s} happly => ?_
  obtain ⟨_, -, rfl, -⟩ := delimiter_apply happly
  exact .inl hparen

end Written

section Runs

variable {run word rest : Text}

theorem prefix_of_run (hword : ∀ c ∈ word, c.isAlpha = true)
    (hrest : rest.head?.any Char.isAlpha = false) (h : word <+: run ++ rest) : word <+: run := by
  rcases List.prefix_or_prefix_of_prefix h (List.prefix_append run rest) with h' | ⟨tail, rfl⟩
  · exact h'
  · rw [List.prefix_append_right_inj] at h
    cases tail with
    | nil => simp
    | cons c tail =>
      obtain ⟨rest, rfl⟩ := h
      have hc := hword c (by simp)
      rw [List.cons_append, List.head?_cons, Option.any_some, hc] at hrest
      cases hrest

/-- A run of letters with a text behind it that begins as allowed is its own, or goes on with the
function that stands there. -/
theorem run_eq {fs : List Func} {name t : Text} (hname : ∀ c ∈ name, c.isAlpha = true)
    (hword : ∀ c ∈ word, c.isAlpha = true) (hrest : rest.head?.any Char.isAlpha = false)
    (ht : Begins fs t) (h : name ++ t = word ++ rest) :
    word = name ∨ ∃ f ∈ fs, word = name ++ f.name := by
  have hrun := congrArg (List.takeWhile Char.isAlpha) h
  rw [takeWhile_run hword hrest] at hrun
  rcases ht with ht | ⟨f, hf, tail, rfl⟩
  · rw [takeWhile_run hname ht] at hrun
    exact .inl hrun.symm
  · have hletters : ∀ c ∈ name ++ f.name, c.isAlpha = true :=
      List.forall_mem_append.2 ⟨hname, f.isAlpha_of_mem_name⟩
    rw [← List.append_assoc, takeWhile_run hletters rfl] at hrun
    exact .inr ⟨f, hf, hrun.symm⟩

end Runs

theorem head_gap {gap rest : Text} (blank : gap.isBlank = true)
    (hrest : rest.head?.any Char.isAlpha = false) :
    (gap ++ rest).head?.any Char.isAlpha = false := by
  cases gap with
  | nil => exact hrest
  | cons c gap =>
    have hc := List.all_eq_true.1 blank c List.mem_cons_self
    exact (blank_classes hc).2.1

theorem Braced.head {inner w : Text} (h : Braced inner w) (rest : Text) :
    (w ++ rest).head?.any Char.isAlpha = false := by
  cases h with
  | intro blank hinner =>
    rw [group, List.append_assoc]
    exact head_gap blank rfl

namespace IsUnknown

variable {name t : Text}

theorem ne_name (h : IsUnknown name) (f : Func) : f.name ≠ name := by
  rintro rfl
  exact h.noFunction f (List.prefix_refl _)

/-- A reserved name with no letter behind it is neither the unknown one nor does it end in a
function. -/
theorem reserved_ne_run (h : IsUnknown name) {word rest : Text} (hword : word ∈ reserved)
    (hrest : rest.head?.any Char.isAlpha = false) {fs : List Func} (ht : Begins fs t) :
    name ++ t ≠ word ++ rest := by
  intro heq
  rcases run_eq h.letters (isAlpha_of_reserved hword) hrest ht heq with rfl | ⟨f, -, rfl⟩
  · exact h.notReserved hword
  · exact not_suffix_reserved f _ hword (List.suffix_append name f.name)

theorem fraction_passes (h : IsUnknown name) (ht : Begins [] t) :
    fraction.apply (name ++ t) = none := by
  rcases happly : fraction.apply (name ++ t) with _ | ⟨new, left⟩
  · rfl
  obtain ⟨above, below, w, v, hw, -, heq, -⟩ := fraction_apply_iff.1 happly
  rw [List.append_assoc, List.append_assoc] at heq
  exact absurd heq (h.reserved_ne_run (by decide) (hw.head _) ht)

theorem root_passes (h : IsUnknown name) (ht : Begins [] t) : root.apply (name ++ t) = none := by
  rcases happly : root.apply (name ++ t) with _ | ⟨new, left⟩
  · rfl
  obtain ⟨argument, w, hw, heq, -⟩ := root_apply_iff.1 happly
  rw [List.append_assoc] at heq
  rcases run_eq h.letters Func.sqrt.isAlpha_of_mem_name (hw.head _) ht heq with heq | ⟨f, hf, -⟩
  · exact absurd heq (h.ne_name .sqrt)
  · cases hf

theorem delimiter_passes (h : IsUnknown name) {word : Text} {paren : Char}
    (hword : word ∈ reserved) (hparen : paren.isAlpha = false) (ht : Begins Func.all t) :
    (delimiter word paren).apply (name ++ t) = none := by
  rcases happly : (delimiter word paren).apply (name ++ t) with _ | ⟨new, left⟩
  · rfl
  obtain ⟨gap, blank, -, heq⟩ := delimiter_apply happly
  have hhead : (paren :: left).head?.any Char.isAlpha = false := hparen
  rw [List.append_assoc] at heq
  exact absurd heq (h.reserved_ne_run hword (head_gap blank hhead) ht)

theorem pi_passes (h : IsUnknown name) (ht : Begins Func.all t) : pi.apply (name ++ t) = none := by
  rcases happly : pi.apply (name ++ t) with _ | ⟨new, left⟩
  · rfl
  obtain ⟨-, heq, hword⟩ := pi_apply_iff.1 happly
  have hleft : left.head?.any Char.isAlpha = false := by
    cases left with
    | nil => rfl
    | cons c left =>
      refine Bool.eq_false_iff.2 fun hc => ?_
      have hc : c.isAlphanum = true := by
        rw [Char.isAlphanum, show c.isAlpha = true from hc, Bool.true_or]
      rw [List.head?_cons, Option.any_some, isWordChar_of_isAlphanum hc] at hword
      cases hword
  exact absurd heq (h.reserved_ne_run (by decide) hleft ht)

theorem call_passes_or (h : IsUnknown name) (ht : Begins [.sqrt] t) :
    call.apply (name ++ t) = none
      ∨ ∃ (f : Func) (argument left rest : Text), f.name <+: name ++ "sqrt".toList
        ∧ t = "sqrt".toList ++ '(' :: rest
        ∧ call.apply (name ++ t) = some (f.name ++ '(' :: argument ++ [')'], left) := by
  rcases happly : call.apply (name ++ t) with _ | ⟨new, left⟩
  · exact .inl rfl
  obtain ⟨f, argument, w, rfl, heq, -⟩ := call_apply happly
  have hprefix : f.name <+: name ++ t := ⟨w ++ left, by rw [heq, List.append_assoc]⟩
  rcases ht with ht | ⟨g, hg, rest, rfl⟩
  · exact absurd (prefix_of_run f.isAlpha_of_mem_name ht hprefix) (h.noFunction f)
  · obtain rfl := List.mem_singleton.1 hg
    rw [← List.append_assoc] at hprefix
    exact .inr ⟨f, argument, left, rest, prefix_of_run f.isAlpha_of_mem_name rfl hprefix, rfl, rfl⟩

theorem not_sqrt (h : IsUnknown name) : ¬"sqrt".toList <+: name ++ "sqrt".toList := by
  intro hprefix
  rcases List.prefix_or_prefix_of_prefix hprefix (List.prefix_append name _) with h' | h'
  · exact h.noFunction .sqrt h'
  · have hall : ∀ d ∈ List.inits "sqrt".toList, d ≠ [] → "sqrt".toList <+: d ++ "sqrt".toList →
        d = "sqrt".toList := by decide
    exact h.ne_name .sqrt (hall name ((List.mem_inits _ _).2 h') h.nonempty hprefix).symm

end IsUnknown

section Rewriting

variable {u name t : Text}

/-- Applies rules one after the other. -/
def rewriteAll (rs : List Rule) (t : Text) : Text :=
  rs.foldl (fun t rule => rule.rewrite t) t

theorem rewriteAll_plain (hu : ∀ c ∈ u, c ≠ '\\') (rs : List Rule) (s : Text) :
    rewriteAll rs (u ++ s) = u ++ rewriteAll rs s := by
  induction rs generalizing s with
  | nil => rfl
  | cons rule rs ih =>
    have hturns : rule.Turns u u := .plain hu
    change rewriteAll rs (rule.rewrite (u ++ s)) = u ++ rewriteAll rs (rule.rewrite s)
    rw [hturns, ih]

theorem letters_plain (hname : ∀ c ∈ name, c.isAlpha = true) : ∀ c ∈ name, c ≠ '\\' := by
  rintro c hc rfl
  exact absurd (hname '\\' hc) (by decide)

theorem rewrite_passed {rule : Rule} (hu : ∀ c ∈ u, c ≠ '\\')
    (hname : ∀ c ∈ name, c.isAlpha = true) (h : rule.apply (name ++ t) = none) :
    rule.rewrite (u ++ '\\' :: (name ++ t)) = u ++ '\\' :: (name ++ rule.rewrite t) := by
  have hbefore : rule.Turns u u := .plain hu
  have hbehind : rule.Turns name name := .plain (letters_plain hname)
  rw [hbefore, Rule.rewrite_none h, hbehind]

theorem command_rewrite_name (hu : ∀ c ∈ u, c ≠ '\\') (hne : name ≠ [])
    (hname : ∀ c ∈ name, c.isAlpha = true) (t : Text) :
    command.rewrite (u ++ '\\' :: (name ++ t))
      = u ++ command.rewrite (t.dropWhile Char.isAlpha) := by
  have hhead : (name ++ t).head?.any Char.isAlpha = true := by
    cases name with
    | nil => exact absurd rfl hne
    | cons c name => exact hname c List.mem_cons_self
  have happly : command.apply (name ++ t) = some ([], t.dropWhile Char.isAlpha) := by
    rw [← List.dropWhile_append_of_pos hname]
    exact if_pos hhead
  have hbefore : command.Turns u u := .plain hu
  rw [hbefore, Rule.rewrite_some happly]
  rfl

/-- Removing commands and dropping the letters in front may change places. -/
theorem command_dropWhile (t : Text) :
    (command.rewrite t).dropWhile Char.isAlpha = command.rewrite (t.dropWhile Char.isAlpha) := by
  have hletters : ∀ c ∈ t.takeWhile Char.isAlpha, c.isAlpha = true :=
    fun _ => List.mem_takeWhile_imp
  have hturns : command.Turns (t.takeWhile Char.isAlpha) (t.takeWhile Char.isAlpha) :=
    .plain (letters_plain hletters)
  have hhead := (not_hasCommand_rewrite (t.dropWhile Char.isAlpha)).2 (head_dropWhile _ t)
  have hsplit := hturns (t.dropWhile Char.isAlpha)
  rw [List.takeWhile_append_dropWhile] at hsplit
  rw [hsplit, dropWhile_run hletters (by simpa using hhead)]

/-- Where the rule of calls passes the command, so do those behind it but the last one. -/
theorem rewriteAll_passed (hu : ∀ c ∈ u, c ≠ '\\') (hname : IsUnknown name)
    (ht : Begins [.sqrt] t) (hpasses : call.apply (name ++ t) = none) :
    rewriteAll (rules.drop 2) (u ++ '\\' :: (name ++ t))
      = u ++ (rewriteAll (rules.drop 2) t).dropWhile Char.isAlpha := by
  have h₃ : Begins Func.all _ := ht.rewrite (by simp [Func.all]) begins_call
  have h₄ := h₃.delimiter "left".toList (rfl : '('.isAlpha = false)
  have h₅ := h₄.delimiter "right".toList (rfl : ')'.isAlpha = false)
  have hcall := rewrite_passed hu hname.letters hpasses
  have hleft := rewrite_passed hu hname.letters
    (hname.delimiter_passes (by decide : "left".toList ∈ reserved) (rfl : '('.isAlpha = false) h₃)
  have hright := rewrite_passed hu hname.letters
    (hname.delimiter_passes (by decide : "right".toList ∈ reserved) (rfl : ')'.isAlpha = false) h₄)
  have hpi := rewrite_passed hu hname.letters (hname.pi_passes h₅)
  simp only [rewriteAll, rules, List.drop_succ_cons, List.drop_zero, List.foldl_cons,
    List.foldl_nil, hcall, hleft, hright, hpi,
    command_rewrite_name hu hname.nonempty hname.letters, command_dropWhile]

/-- Where the rule of calls takes up a function, that stays in front. -/
theorem rewriteAll_taken (hu : ∀ c ∈ u, c ≠ '\\') {f : Func} {argument left : Text}
    (htakes : call.apply t = some (f.name ++ '(' :: argument ++ [')'], left)) :
    ∃ rest, rewriteAll (rules.drop 2) (u ++ '\\' :: t) = u ++ (f.name ++ '(' :: rest) := by
  have hfront : ∀ c ∈ u ++ f.name ++ ['('], c ≠ '\\' := by
    simp only [List.forall_mem_append]
    exact ⟨⟨hu, letters_plain f.isAlpha_of_mem_name⟩, by simp⟩
  have hcall : call.rewrite (u ++ '\\' :: t)
      = u ++ f.name ++ ['('] ++ (argument ++ [')'] ++ call.rewrite left) := by
    have hbefore : call.Turns u u := .plain hu
    rw [hbefore, Rule.rewrite_some htakes]
    simp
  have hrest := rewriteAll_plain hfront (rules.drop 3) (argument ++ [')'] ++ call.rewrite left)
  refine ⟨rewriteAll (rules.drop 3) (argument ++ [')'] ++ call.rewrite left), ?_⟩
  change rewriteAll (rules.drop 3) (call.rewrite (u ++ '\\' :: t)) = _
  rw [hcall, hrest, List.append_assoc, List.append_assoc, List.singleton_append]

end Rewriting

/-- The command is removed with the letters that what is made of the text behind it begins with,
unless it makes a function with a root. -/
theorem toCanonical_unknown_cases {u name v : Text} (hu : ∀ c ∈ u, c ≠ '\\')
    (hname : IsUnknown name) (hv : v.head?.any Char.isAlpha = false) :
    toCanonical (u ++ '\\' :: (name ++ v)) = u ++ (toCanonical v).dropWhile Char.isAlpha
      ∨ ∃ (f : Func) (rest rest' : Text), f.name <+: name ++ "sqrt".toList
        ∧ toCanonical (u ++ '\\' :: (name ++ v)) = u ++ (f.name ++ '(' :: rest)
        ∧ toCanonical v = "sqrt".toList ++ '(' :: rest' := by
  have h₀ : Begins [] v := .inl hv
  have h₁ := h₀.rewrite (fun _ h => h) begins_fraction
  have h₂ := h₁.rewrite (by simp) begins_root
  have hfraction := rewrite_passed hu hname.letters (hname.fraction_passes h₀)
  have hroot := rewrite_passed hu hname.letters (hname.root_passes h₁)
  have hrules : ∀ t, toCanonical t
      = rewriteAll (rules.drop 2) (root.rewrite (fraction.rewrite t)) := fun _ => rfl
  rw [hrules v, hrules, hfraction, hroot]
  generalize root.rewrite (fraction.rewrite v) = w at h₂
  rcases hname.call_passes_or h₂ with hpasses | ⟨f, argument, left, rest, hprefix, rfl, htakes⟩
  · exact .inl (rewriteAll_passed hu hname h₂ hpasses)
  · have hsqrt : ∀ c ∈ "sqrt(".toList, c ≠ '\\' := by simp
    obtain ⟨behind, htaken⟩ := rewriteAll_taken hu htakes
    exact .inr ⟨f, behind, _, hprefix, htaken, rewriteAll_plain hsqrt (rules.drop 2) rest⟩

/-- Only the command itself is removed exactly where what is made of the text behind it begins with
no letter. Where it does, its first letters are removed too, unless the command makes a function
with a root. -/
theorem toCanonical_unknown {u name v : Text} (hu : ∀ c ∈ u, c ≠ '\\') (hname : IsUnknown name)
    (hv : v.head?.any Char.isAlpha = false) :
    (toCanonical (u ++ '\\' :: (name ++ v)) = u ++ toCanonical v
        ↔ (toCanonical v).head?.any Char.isAlpha = false)
      ∧ ((∀ f : Func, ¬f.name <+: name ++ "sqrt".toList) →
        toCanonical (u ++ '\\' :: (name ++ v)) = u ++ (toCanonical v).dropWhile Char.isAlpha) := by
  rcases toCanonical_unknown_cases hu hname hv with h | ⟨f, rest, rest', hprefix, h, hroot⟩
  · refine ⟨?_, fun _ => h⟩
    rw [h, List.append_cancel_left_eq, List.dropWhile_eq_self_iff]
    cases toCanonical v <;> simp
  · refine ⟨iff_of_false (fun heq => ?_) ?_, fun hno => absurd hprefix (hno f)⟩
    · rw [h, List.append_cancel_left_eq, hroot] at heq
      have hletters : ∀ c ∈ "sqrt".toList, c.isAlpha = true := Func.sqrt.isAlpha_of_mem_name
      have hrun := congrArg (List.takeWhile Char.isAlpha) heq
      rw [takeWhile_run f.isAlpha_of_mem_name rfl, takeWhile_run hletters rfl] at hrun
      exact hname.not_sqrt (hrun ▸ hprefix)
    · rw [hroot]
      intro hhead
      cases hhead

/-- What stands in parentheses behind a command stays, and a constant behind it goes with it. -/
theorem toCanonical_cdot : IsUnknown "cdot".toList
    ∧ toCanonical ("2".toList ++ '\\' :: ("cdot".toList ++ "(\\pi)".toList)) = "2(pi)".toList
    ∧ toCanonical ("2".toList ++ '\\' :: ("cdot".toList ++ "\\pi".toList)) = "2".toList := by
  have hname : IsUnknown "cdot".toList :=
    ⟨by decide, List.all_eq_true.1 rfl, by decide, by intro f; cases f <;> decide⟩
  have hu : ∀ c ∈ "2".toList, c ≠ '\\' := by simp
  have hgroup : toCanonical "(\\pi)".toList = "(pi)".toList := by decide +kernel
  have hpi : toCanonical "\\pi".toList = "pi".toList := by decide +kernel
  have hkeeps := (toCanonical_unknown hu hname (v := "(\\pi)".toList) (by decide)).1
  have hloses := (toCanonical_unknown hu hname (v := "\\pi".toList) (by decide)).2
  rw [hgroup] at hkeeps
  rw [hpi] at hloses
  exact ⟨hname, hkeeps.2 (by decide), hloses (by intro f; cases f <;> decide)⟩

/-- A constant and a function are removed with an unknown command in front of them, and a root makes
another function with it. -/
theorem unknown_command_takes_more :
    (IsUnknown "cdot".toList ∧ toCanonical "\\pi".toList = "pi".toList
        ∧ toCanonical "2\\cdot\\pi".toList = "2".toList)
      ∧ (toCanonical "\\sin 3".toList = "sin(3)".toList
        ∧ toCanonical "\\cdot\\sin 3".toList = "(3)".toList)
      ∧ IsUnknown "co".toList ∧ toCanonical "\\sqrt{2}".toList = "sqrt(2)".toList
        ∧ toCanonical "\\co\\sqrt{2}".toList = "cos(qrt(2))".toList := by
  refine ⟨⟨⟨by decide, List.all_eq_true.1 rfl, by decide, ?_⟩, ?_, ?_⟩, ⟨?_, ?_⟩,
    ⟨by decide, List.all_eq_true.1 rfl, by decide, ?_⟩, ?_, ?_⟩
  case refine_1 | refine_6 => intro f; cases f <;> decide
  all_goals decide +kernel

end TexCalc.Latex
