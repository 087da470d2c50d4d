import Mathlib.Data.List.DropRight
import TexCalc.Proofs.Canonical
import TexCalc.Proofs.Trimming

/-!
# Submitting a recalled submission

What a submission records as its expression is trimmed and closes its parentheses, so it is
completed as it stands (`completed_record`). Taken back into the entry it is therefore previewed
with its result and submitted as the same record, provided that the mode and the precision are those
of the submission that made it (`restore_reproduces`).
-/

namespace TexCalc

/-- No blank stands at either end of the text. -/
structure Text.Trimmed (t : Text) : Prop where
  head : t.head?.any TexCalc.isBlank = false
  last : t.getLast?.any TexCalc.isBlank = false

section Completion

variable {t : Text}

theorem trimmed_trim (t : Text) : t.trim.Trimmed := by
  have hend : t.trim = t.trimStart.rdropWhile isBlank := rfl
  constructor
  · obtain ⟨rest, hrest⟩ := List.rdropWhile_prefix isBlank (l := t.trimStart)
    have hstart : ¬t.trimStart.head?.any isBlank = true := head_dropWhile isBlank t
    rw [← hrest, ← hend] at hstart
    cases htrim : t.trim with
    | nil => rfl
    | cons c u =>
      rw [htrim] at hstart
      simpa using hstart
  · have hreverse : ¬t.trim.reverse.head?.any isBlank = true := by
      rw [hend, List.rdropWhile, List.reverse_reverse]
      exact head_dropWhile isBlank _
    rw [List.head?_reverse] at hreverse
    exact Bool.eq_false_iff.2 hreverse

theorem trim_eq_self (h : t.Trimmed) : t.trim = t := by
  have hstart : t.trimStart = t := by
    cases t with
    | nil => rfl
    | cons c t => exact List.dropWhile_cons_of_neg (by simpa using h.head)
  change t.trimStart.rdropWhile isBlank = t
  rw [hstart, List.rdropWhile_eq_self_iff]
  intro hne
  have hlast := h.last
  rw [List.getLast?_eq_some_getLast hne] at hlast
  simpa using hlast

theorem trimmed_closeParens (h : t.Trimmed) : (closeParens t).Trimmed := by
  rw [closeParens]
  rcases t.count '(' - t.count ')' with _ | n
  · rwa [List.replicate_zero, List.append_nil]
  · constructor
    · cases t with
      | nil => rfl
      | cons c t => exact h.head
    · rw [List.replicate_succ', ← List.append_assoc, List.getLast?_concat]
      rfl

theorem closeParens_trim_closeParens (h : t.Trimmed) :
    closeParens (closeParens t).trim = closeParens t := by
  rw [trim_eq_self (trimmed_closeParens h), closeParens_eq_self (surplus_closeParens t)]

theorem isBlank_closeParens_trim (h : t.isBlank = false) :
    (closeParens t.trim).isBlank = false := by
  obtain ⟨gap, gap', blank, blank', ht⟩ := exists_trim t
  refine Bool.eq_false_iff.2 fun hcompleted => Bool.eq_false_iff.1 h ?_
  rw [closeParens, Text.isBlank, List.all_append, Bool.and_eq_true] at hcompleted
  rw [ht, Text.isBlank, List.all_append, List.all_append, Bool.and_eq_true, Bool.and_eq_true]
  exact ⟨⟨blank, hcompleted.1⟩, blank'⟩

end Completion

namespace Window

/-- The windows in which a run made the submissions of its log, the latest first. -/
def submissions (w : Window) (actions : List Action) : List Window :=
  let kept := (w.trail actions).reverse.takeWhile fun (_, a) => !a.clearsHistory
  (kept.filter fun (w, a) => a.submits && !w.session.entry.isBlank).map Prod.fst

theorem log_eq_map (w : Window) (actions : List Action) :
    w.log actions = (w.submissions actions).map fun w => w.session.record := by
  rw [submissions, List.map_map]
  rfl

theorem entry_of_mem_submissions {w made : Window} {actions : List Action}
    (h : made ∈ w.submissions actions) : made.session.entry.isBlank = false := by
  obtain ⟨⟨made, a⟩, hmem, rfl⟩ := List.mem_map.1 h
  have hsubmits := List.of_mem_filter hmem
  simp only [Bool.and_eq_true, Bool.not_eq_true'] at hsubmits
  exact hsubmits.2

end Window

namespace Session

variable {s made : Session} {record : Record} {i : Nat}

theorem completed_record (h : made.entry.isBlank = false) :
    closeParens made.record.expression.trim = made.record.expression
      ∧ made.record.expression.isBlank = false :=
  ⟨closeParens_trim_closeParens (trimmed_trim made.entry), isBlank_closeParens_trim h⟩

theorem restore_eq (h : s.history[i]? = some record) (hblank : record.expression.isBlank = false) :
    s.restore i = { s with
      entry := record.expression
      preview := (answer s.mode s.digits record.expression).1
      report := (answer s.mode s.digits record.expression).2
      focus := true } := by
  simp [restore, h, edit, refresh, assign, hblank]

/-- Taken back and submitted again, a completed expression is recorded as it stands, with the answer
that it has now. -/
theorem submit_restore_history (h : s.history[i]? = some record)
    (hcompleted : closeParens record.expression.trim = record.expression)
    (hblank : record.expression.isBlank = false) :
    (s.restore i).submit.history
      = (⟨record.expression, (answer s.mode s.digits record.expression).1⟩ :: s.history).take
        historyLimit := by
  rw [restore_eq h hblank, submit_history, record_eq, hcompleted, hblank]
  rfl

end Session

/-- A submission in the history, taken back into the entry, is submitted again with the same
expression, and in the mode and with the precision that were in force when it was made it is
previewed and recorded with the same result. -/
theorem restore_reproduces {actions : List Action} {s : Session} {i : Nat} {record : Record}
    (reached : (Window.run {} actions).session = s) (h : s.history[i]? = some record) :
    ∃ made : Window, (Window.submissions {} actions)[i]? = some made
      ∧ record = made.session.record
      ∧ closeParens record.expression.trim = record.expression
      ∧ (s.restore i).entry = record.expression
      ∧ (∃ result, (s.restore i).submit.history
        = (⟨record.expression, result⟩ :: s.history).take historyLimit)
      ∧ (s.mode = made.session.mode → s.digits = made.session.digits →
        (s.restore i).preview = record.result
          ∧ (s.restore i).submit.history = (record :: s.history).take historyLimit) := by
  have hlog : ((Window.submissions {} actions).map fun w => w.session.record)[i]?
      = some record := by
    rw [← reached, Window.run_history_eq_take, Window.log_eq_map] at h
    obtain ⟨hlt, -⟩ := List.getElem?_eq_some_iff.1 h
    rwa [List.getElem?_take_of_lt (by simp at hlt; omega)] at h
  obtain ⟨made, hmade, rfl⟩ := by simpa using hlog
  have hentry := Window.entry_of_mem_submissions (List.mem_of_getElem? hmade)
  obtain ⟨hcompleted, hblank⟩ := Session.completed_record hentry
  have hrestore := Session.restore_eq h hblank
  have hsubmit := Session.submit_restore_history h hcompleted hblank
  refine ⟨made, hmade, rfl, hcompleted, by rw [hrestore], ⟨_, hsubmit⟩, fun hmode hdigits => ?_⟩
  have hresult : (answer s.mode s.digits made.session.record.expression).1
      = made.session.record.result := by
    rw [hmode, hdigits, Session.record_eq]
  rw [hsubmit, hrestore, hresult]
  exact ⟨rfl, rfl⟩

/-- The third that is submitted with ten decimals is previewed and recorded with ten again after the
precision has gone down to three and back, and it has kept the parenthesis that closed it. -/
theorem restore_reproduces_third : ∃ s, (Window.run {} [.gesture (.write " (1/3 ".toList),
        .gesture .enter, .gesture (.choosePrecision 3), .gesture (.write "2/3".toList),
        .gesture (.press .equals), .gesture (.choosePrecision 10)]).session = s
      ∧ s.history[1]? = some ⟨"(1/3)".toList, "0.3333333333".toList⟩
      ∧ (s.restore 1).preview = "0.3333333333".toList
      ∧ (s.restore 1).submit.history
        = (⟨"(1/3)".toList, "0.3333333333".toList⟩ :: s.history).take historyLimit := by
  have hthird : (Window.run {} [.gesture (.write " (1/3 ".toList), .gesture .enter,
      .gesture (.choosePrecision 3), .gesture (.write "2/3".toList), .gesture (.press .equals),
      .gesture (.choosePrecision 10)]).session.history[1]?
        = some ⟨"(1/3)".toList, "0.3333333333".toList⟩ := by
    decide +kernel
  obtain ⟨made, hmade, -, -, -, -, hsame⟩ := restore_reproduces rfl hthird
  have hforce : ∀ w ∈ (Window.submissions {} [.gesture (.write " (1/3 ".toList), .gesture .enter,
      .gesture (.choosePrecision 3), .gesture (.write "2/3".toList), .gesture (.press .equals),
      .gesture (.choosePrecision 10)])[1]?, w.session.mode = .latex ∧ w.session.digits = 10 := by
    decide +kernel
  obtain ⟨hmode, hdigits⟩ := hforce made hmade
  refine ⟨_, rfl, hthird, hsame ?_ ?_⟩
  · rw [hmode]
    decide +kernel
  · rw [hdigits]
    decide +kernel

end TexCalc
