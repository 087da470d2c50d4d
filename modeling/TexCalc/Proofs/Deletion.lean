import Mathlib.Data.List.Infix
import TexCalc.Proofs.LoneLetter
import TexCalc.Proofs.Preview

/-!
# Deleting what a function key wrote

The delete key searches the table of functions in its order and takes the first one that ends the
entry. The names `asin`, `acos` and `atan` end in those of `sin`, `cos` and `tan`, which stand in
front of them in the table, so of what these three keys write an `a` is left (`deleteLast_arc`),
which leaves the entry without a value (`answer_append_letter`). All other function keys are undone
(`deleteLast_opening`), and with the entry its preview comes back. The main statement is
`delete_after_function`.
-/

namespace TexCalc

/-- The functions whose names end in that of another one. -/
def Func.arcs : List Func :=
  [.asin, .acos, .atan]

section Openings

/-- Whatever stands in front of what a function key writes, it is not mistaken for a function in
front of that one in the table. -/
theorem exists_split_table {f : Func} (hf : f ∉ Func.arcs) : ∃ before after,
    Func.all = before ++ f :: after
      ∧ ∀ g ∈ before, ¬g.opening <:+ f.opening ∧ ¬f.opening <:+ g.opening := by
  cases f with
  | sin => exact ⟨[], _, rfl, by decide⟩
  | cos => exact ⟨[.sin], _, rfl, by decide⟩
  | tan => exact ⟨[.sin, .cos], _, rfl, by decide⟩
  | sqrt => exact ⟨[.sin, .cos, .tan, .asin, .acos, .atan], _, rfl, by decide⟩
  | log => exact ⟨[.sin, .cos, .tan, .asin, .acos, .atan, .sqrt], _, rfl, by decide⟩
  | ln => exact ⟨[.sin, .cos, .tan, .asin, .acos, .atan, .sqrt, .log], _, rfl, by decide⟩
  | abs => exact ⟨[.sin, .cos, .tan, .asin, .acos, .atan, .sqrt, .log, .ln], _, rfl, by decide⟩
  | asin | acos | atan => exact absurd hf (by decide)

theorem exists_opening_of_arc {f : Func} (hf : f ∈ Func.arcs) :
    ∃ g, g ∉ Func.arcs ∧ f.opening = 'a' :: g.opening := by
  cases f with
  | asin => exact ⟨.sin, by decide, rfl⟩
  | acos => exact ⟨.cos, by decide, rfl⟩
  | atan => exact ⟨.tan, by decide, rfl⟩
  | _ => exact absurd hf (by decide)

theorem deleteLast_opening {f : Func} (hf : f ∉ Func.arcs) (t : Text) :
    deleteLast (t ++ f.opening) = t := by
  obtain ⟨before, after, hall, hbefore⟩ := exists_split_table hf
  have hfound : (Func.all.findSome? fun g => g.opening.isSuffixOf? (t ++ f.opening)) = some t := by
    refine List.findSome?_eq_some_iff.2 ⟨before, f, after, hall, ?_, fun g hg => ?_⟩
    · exact List.isSuffixOf?_eq_some_iff_append_eq.2 rfl
    · refine Option.eq_none_iff_forall_ne_some.2 fun rest hrest => ?_
      have hsuffix : g.opening <:+ t ++ f.opening :=
        ⟨rest, List.isSuffixOf?_eq_some_iff_append_eq.1 hrest⟩
      rcases List.suffix_or_suffix_of_suffix hsuffix (List.suffix_append t f.opening) with h | h
      · exact (hbefore g hg).1 h
      · exact (hbefore g hg).2 h
  rw [deleteLast, hfound]

theorem deleteLast_arc {f : Func} (hf : f ∈ Func.arcs) (t : Text) :
    deleteLast (t ++ f.opening) = t ++ ['a'] := by
  obtain ⟨g, hg, hopening⟩ := exists_opening_of_arc hf
  rw [hopening, List.append_cons, deleteLast_opening hg]

end Openings

namespace Session

variable {s : Session}

theorem edit_eq {entry : Text} (h : entry.isBlank = false) : s.edit entry = { s with
    entry
    preview := (answer s.mode s.digits entry).1
    report := (answer s.mode s.digits entry).2 } := by
  simp [edit, assign, refresh, h]

theorem UpToDate.answer_eq (h : s.UpToDate) (hentry : s.entry.isBlank = false) :
    s.preview = (answer s.mode s.digits s.entry).1
      ∧ s.report.message = (answer s.mode s.digits s.entry).2.message
      ∧ s.report.texts = (answer s.mode s.digits s.entry).2.texts := by
  rcases he : evaluate s.mode s.entry with cause | evaluation
  · obtain ⟨hpreview, hmessage, -, htexts⟩ := h.failure hentry cause he
    rw [answer, he]
    exact ⟨hpreview, hmessage, htexts⟩
  · rw [answer, he]
    exact h.value hentry evaluation he

theorem isBlank_append_opening (t : Text) (f : Func) : (t ++ f.opening).isBlank = false := by
  have hopening : f.opening.isBlank = false := by cases f <;> decide
  rw [Text.isBlank, List.all_append]
  exact Bool.and_eq_false_iff.2 (.inr hopening)

end Session

theorem Window.run_function_delete {w : Window} {f : Func} {entry : Text}
    (h : deleteLast (w.session.entry ++ f.opening) = entry) (hentry : entry.isBlank = false) :
    w.run [.gesture (.press (.function f)), .gesture (.press .delete)]
      = { w with session := { w.session with
        entry
        preview := (answer w.session.mode w.session.digits entry).1
        report := (answer w.session.mode w.session.digits entry).2
        focus := true } } := by
  have hopening := Session.isBlank_append_opening w.session.entry f
  simp [run, step, Session.receive, Session.press, Session.press.written, Session.insert,
    Session.edit_eq hopening, Session.edit_eq hentry, h]

theorem answer_append_letter (mode : Mode) (digits : Nat) {t : Text} (ht : t.AllowsName) :
    ∃ cause, answer mode digits (t ++ ['a']) = (failureText, .failure cause) := by
  have hletter : 'a'.isAlpha = true := rfl
  obtain ⟨cause, hcause⟩ := evaluate_append_letter hletter (by decide) ht mode
  exact ⟨cause, by rw [answer, hcause]⟩

/-- A function key and the delete key give the entry back, and with it the preview, the error and
the stages, unless the name of the function ends in that of another one: then an `a` is left behind
the entry, and a failure is shown, but where the `a` goes on from a name or a command. Mode,
precision and history stay as they are. -/
theorem delete_after_function (w : Window) (h : w.session.UpToDate)
    (hentry : w.session.entry.isBlank = false) (f : Func) : ∃ s,
    w.run [.gesture (.press (.function f)), .gesture (.press .delete)] = { w with session := s }
      ∧ s.mode = w.session.mode ∧ s.digits = w.session.digits ∧ s.history = w.session.history
      ∧ (f ∉ Func.arcs → s.entry = w.session.entry ∧ s.preview = w.session.preview
        ∧ s.report.message = w.session.report.message ∧ s.report.texts = w.session.report.texts)
      ∧ (f ∈ Func.arcs → s.entry = w.session.entry ++ ['a']
        ∧ (s.preview, s.report)
          = answer w.session.mode w.session.digits (w.session.entry ++ ['a'])
        ∧ (w.session.entry.AllowsName → s.preview = failureText ∧ s.report.message ≠ []
          ∧ s.report.texts = [[], [], []])) := by
  by_cases hf : f ∈ Func.arcs
  · have hblank : (w.session.entry ++ ['a']).isBlank = false := by
      rw [Text.isBlank, List.all_append]
      exact Bool.and_eq_false_iff.2 (.inr rfl)
    refine ⟨_, Window.run_function_delete (deleteLast_arc hf _) hblank, rfl, rfl, rfl,
      fun hno => absurd hf hno, fun _ => ⟨rfl, rfl, fun hallows => ?_⟩⟩
    obtain ⟨cause, hanswer⟩ := answer_append_letter w.session.mode w.session.digits hallows
    rw [hanswer]
    exact ⟨rfl, message_ne_nil cause, rfl⟩
  · obtain ⟨hpreview, hmessage, htexts⟩ := h.answer_eq hentry
    exact ⟨_, Window.run_function_delete (deleteLast_opening hf _) hentry, rfl, rfl, rfl,
      fun _ => ⟨rfl, hpreview.symm, hmessage.symm, htexts.symm⟩, fun hmem => absurd hmem hf⟩

/-- Behind `1+2` the key of `cos` is undone; that of `acos` is not. -/
theorem delete_after_cosine :
    (Window.run {} [.gesture (.write "1+2".toList)]).session.UpToDate
      ∧ (Window.run {} [.gesture (.write "1+2".toList)]).session.entry.isBlank = false
      ∧ (∃ s, (Window.run {} [.gesture (.write "1+2".toList)]).run
          [.gesture (.press (.function .cos)), .gesture (.press .delete)] = { session := s }
        ∧ s.entry = "1+2".toList ∧ s.preview = "3".toList)
      ∧ ∃ s, (Window.run {} [.gesture (.write "1+2".toList)]).run
          [.gesture (.press (.function .acos)), .gesture (.press .delete)] = { session := s }
        ∧ s.entry = "1+2a".toList ∧ s.preview = failureText := by
  have current : (Window.run {} [.gesture (.write "1+2".toList)]).session.UpToDate :=
    upToDate_run upToDate_start (by simp)
  have nonblank : (Window.run {} [.gesture (.write "1+2".toList)]).session.entry.isBlank = false := by
    decide +kernel
  refine ⟨current, nonblank, ?_, ?_⟩
  · obtain ⟨s, hrun, -, -, -, hback, -⟩ := delete_after_function _ current nonblank .cos
    obtain ⟨hentry, hpreview, -⟩ := hback (by decide)
    exact ⟨s, hrun, hentry, hpreview.trans (by decide +kernel)⟩
  · obtain ⟨s, hrun, -, -, -, -, hleft⟩ := delete_after_function _ current nonblank .acos
    obtain ⟨hentry, -, hfailure⟩ := hleft (by decide)
    exact ⟨s, hrun, hentry, (hfailure (by rintro _ ⟨⟩; decide)).1⟩

/-- Of what the keys of `asin`, `acos` and `atan` write behind `2` an `a` is left, and where the
value of `2` was shown there is a failure. -/
theorem arc_not_undone :
    (Window.run {} [.gesture (.write "2".toList)]).session.UpToDate
      ∧ (Window.run {} [.gesture (.write "2".toList)]).session.entry = "2".toList
      ∧ (Window.run {} [.gesture (.write "2".toList)]).session.preview = "2".toList
      ∧ ∀ f ∈ [Func.asin, .acos, .atan], (Window.run {} [.gesture (.write "2".toList),
          .gesture (.press (.function f)), .gesture (.press .delete)]).session.entry = "2a".toList
        ∧ (Window.run {} [.gesture (.write "2".toList), .gesture (.press (.function f)),
          .gesture (.press .delete)]).session.preview = failureText := by
  refine ⟨upToDate_run upToDate_start (by simp), ?_, ?_, ?_⟩
  all_goals decide +kernel

end TexCalc
