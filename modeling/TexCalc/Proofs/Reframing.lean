import TexCalc.Proofs.Rules

/-!
# What rewriting keeps

A rule drops names, blanks and braces, encloses in parentheses what stood in the braces, and writes
a `/` between two groups; nothing else happens to a text that is rewritten (`reframes_toCanonical`).
So what cannot be told from the frame of a text, its letters, blanks, backslashes, braces,
parentheses and quotients, is the same in its rewriting, and parentheses come in pairs. The main
statement is `toCanonical_conserves`.
-/

namespace TexCalc.Latex

/-- What a rule may drop: a letter, a blank, a backslash or a brace. -/
def isFrame (c : Char) : Bool :=
  c.isAlpha || isBlank c || c == '\\' || isBrace c

/-- `Reframes t u`: the text `u` is `t` with pieces of its frame dropped, a `/` written between other
pieces, and parentheses around others. -/
inductive Reframes : Text → Text → Prop
  | keep (t : Text) : Reframes t t
  | drop {t : Text} (h : ∀ c ∈ t, isFrame c = true) : Reframes t []
  | slash : Reframes [] ['/']
  | enclose {t u : Text} (h : Reframes t u) : Reframes t ('(' :: (u ++ [')']))
  | append {t t' u u' : Text} (h : Reframes t t') (h' : Reframes u u') :
      Reframes (t ++ u) (t' ++ u')
  | trans {t u v : Text} (h : Reframes t u) (h' : Reframes u v) : Reframes t v

section Frame

theorem isFrame_letter {c : Char} (h : c.isAlpha = true) : isFrame c = true := by
  simp [isFrame, h]

theorem isFrame_blank {c : Char} (h : isBlank c = true) : isFrame c = true := by
  simp [isFrame, h]

variable {t u front back : Text}

theorem Reframes.dropFront (hfront : ∀ c ∈ front, isFrame c = true) (h : Reframes t u) :
    Reframes (front ++ t) u :=
  (Reframes.drop hfront).append h

theorem Reframes.dropBack (h : Reframes t u) (hback : ∀ c ∈ back, isFrame c = true) :
    Reframes (t ++ back) u := by
  have hpieces := h.append (.drop hback)
  rwa [List.append_nil] at hpieces

theorem Reframes.dropBackslash (h : Reframes t u) : Reframes ('\\' :: t) u :=
  .dropFront (List.all_eq_true.1 (rfl : ['\\'].all isFrame = true)) h

theorem Reframes.dropName {name : Text} (hname : ∀ c ∈ name, c.isAlpha = true)
    (h : Reframes t u) : Reframes ('\\' :: (name ++ t)) u :=
  (h.dropFront fun c hc => isFrame_letter (hname c hc)).dropBackslash

theorem Reframes.dropGap {gap : Text} (blank : gap.isBlank = true) (h : Reframes t u) :
    Reframes (gap ++ t) u :=
  h.dropFront fun c hc => isFrame_blank (List.all_eq_true.1 blank c hc)

end Frame

section Rules

variable {inner w : Text}

theorem Braced.reframes (h : Braced inner w) : Reframes w inner := by
  obtain ⟨blank, -⟩ := h
  have hclose : Reframes (inner ++ ['}']) inner :=
    (Reframes.keep inner).dropBack (List.all_eq_true.1 (rfl : ['}'].all isFrame = true))
  have hbraces : Reframes ('{' :: (inner ++ ['}'])) inner :=
    hclose.dropFront (List.all_eq_true.1 (rfl : ['{'].all isFrame = true))
  exact hbraces.dropGap blank

theorem fraction_reframes : fraction.Keeps Reframes := by
  intro t new left h
  obtain ⟨above, below, w, v, hw, hv, rfl, rfl⟩ := fraction_apply_iff.1 h
  have hgroups : Reframes (w ++ v) ('(' :: above ++ ")/(".toList ++ below ++ [')']) := by
    have hquotient := (hw.reframes.enclose.append .slash).append hv.reframes.enclose
    simpa using hquotient
  refine ⟨"frac".toList ++ (w ++ v), by simp, hgroups.dropName ?_⟩
  exact List.all_eq_true.1 rfl

/-- A name stays in front of its argument, which is enclosed. -/
theorem reframes_written (name : Text) (h : Reframes w inner) :
    Reframes ('\\' :: (name ++ w)) (name ++ '(' :: inner ++ [')']) := by
  have hname := ((Reframes.keep name).append h.enclose).dropBackslash
  simpa using hname

theorem root_reframes : root.Keeps Reframes := by
  intro t new left h
  obtain ⟨argument, w, hw, rfl, rfl⟩ := root_apply_iff.1 h
  exact ⟨"sqrt".toList ++ w, rfl, reframes_written "sqrt".toList hw.reframes⟩

theorem call_reframes : call.Keeps Reframes := by
  intro t new left h
  obtain ⟨f, argument, w, rfl, rfl, hw⟩ := call_apply h
  refine ⟨f.name ++ w, rfl, reframes_written f.name ?_⟩
  rcases hw with hw | ⟨gap, blank, -, rfl⟩
  · exact hw.reframes
  · exact (Reframes.keep argument).dropGap blank

theorem delimiter_reframes {name : Text} (paren : Char) (hname : ∀ c ∈ name, c.isAlpha = true) :
    (delimiter name paren).Keeps Reframes := by
  intro t new left h
  obtain ⟨gap, blank, rfl, rfl⟩ := delimiter_apply h
  exact ⟨name ++ (gap ++ [paren]), by simp, ((Reframes.keep [paren]).dropGap blank).dropName hname⟩

theorem pi_reframes : pi.Keeps Reframes := by
  intro t new left h
  obtain ⟨rfl, rfl, -⟩ := pi_apply_iff.1 h
  exact ⟨"pi".toList, rfl, (Reframes.keep "pi".toList).dropBackslash⟩

theorem command_reframes : command.Keeps Reframes := by
  intro t new left h
  obtain ⟨rfl, name, hname, rfl⟩ := command_apply h
  refine ⟨name, rfl, ?_⟩
  have hcommand := (Reframes.keep []).dropName hname
  rwa [List.append_nil] at hcommand

theorem reframes_of_mem {rule : Rule} (h : rule ∈ rules) : rule.Keeps Reframes := by
  simp only [rules, List.mem_cons, List.not_mem_nil, or_false] at h
  rcases h with rfl | rfl | rfl | rfl | rfl | rfl | rfl
  · exact fraction_reframes
  · exact root_reframes
  · exact call_reframes
  · exact delimiter_reframes '(' (List.all_eq_true.1 rfl)
  · exact delimiter_reframes ')' (List.all_eq_true.1 rfl)
  · exact pi_reframes
  · exact command_reframes

theorem reframes_toCanonical (t : Text) : Reframes t (toCanonical t) :=
  related_foldl_rewrite .keep .append .trans (fun _ => reframes_of_mem) t

end Rules

section Kept

/-- What a rule may drop or write: the frame of a text, its parentheses and `/`. -/
def isScaffold (c : Char) : Bool :=
  isFrame c || c == '(' || c == ')' || c == '/'

/-- The text without letters, blanks, backslashes, braces, parentheses and `/`. -/
def content (t : Text) : Text :=
  t.filter (!isScaffold ·)

theorem content_append (t u : Text) : content (t ++ u) = content t ++ content u :=
  List.filter_append t u

theorem content_frame {t : Text} (h : ∀ c ∈ t, isFrame c = true) : content t = [] :=
  List.filter_eq_nil_iff.2 fun c hc => by simp [isScaffold, h c hc]

theorem Reframes.content_eq {t u : Text} (h : Reframes t u) : content u = content t := by
  induction h with
  | keep t => rfl
  | drop h => exact (content_frame h).symm
  | slash => rfl
  | enclose _ ih =>
    rw [← List.singleton_append, content_append, content_append, ih]
    exact List.append_nil _
  | append _ _ ih ih' => rw [content_append, content_append, ih, ih']
  | trans _ _ ih ih' => exact ih'.trans ih

theorem count_frame {t : Text} {c : Char} (hc : isFrame c = false)
    (h : ∀ d ∈ t, isFrame d = true) : t.count c = 0 := by
  refine List.count_eq_zero.2 fun hmem => ?_
  rw [h c hmem] at hc
  cases hc

/-- Parentheses are written in pairs. -/
theorem Reframes.count_eq {t u : Text} (h : Reframes t u) :
    t.count '(' + u.count ')' = u.count '(' + t.count ')' := by
  induction h with
  | keep t => rfl
  | drop h => simp [count_frame (by decide : isFrame '(' = false) h,
      count_frame (by decide : isFrame ')' = false) h]
  | slash => rfl
  | enclose _ ih =>
    simp only [List.count_cons, List.count_append, List.count_nil, Char.reduceBEq, ↓reduceIte]
    omega
  | append _ _ ih ih' =>
    simp only [List.count_append]
    omega
  | trans _ _ ih ih' => omega

end Kept

/-- Rewriting leaves the digits, points, operators other than `/` and all foreign characters of a
text as they are, each once and in their order, and it opens as many parentheses more than it closes
as the text does. -/
theorem toCanonical_conserves (t : Text) :
    content (toCanonical t) = content t
      ∧ ((toCanonical t).count '(' : Int) - (toCanonical t).count ')' = t.count '(' - t.count ')' := by
  have hreframes := reframes_toCanonical t
  have hcount := hreframes.count_eq
  exact ⟨hreframes.content_eq, by omega⟩

end TexCalc.Latex
