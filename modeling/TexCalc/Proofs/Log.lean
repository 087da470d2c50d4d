import Mathlib.Data.List.Induction
import TexCalc.Session.Window

/-!
# The history is a log

The history is what the run so far has submitted since it was last cleared, as far back as the limit
reaches (`history_eq_log`). A submission is recorded with the mode and the precision in force when
it is made, and nothing that comes later changes the record.
-/

namespace TexCalc

namespace Action

/-- The actions that submit the entry. -/
def submits : Action → Bool
  | .command .submit | .gesture (.press .equals) | .gesture .enter => true
  | _ => false

/-- The actions that clear the history, alone or with all else. -/
def clearsHistory : Action → Bool
  | .command .clearHistory | .command .reset
  | .gesture (.press .clearHistory) | .gesture (.press .reset) => true
  | _ => false

end Action

/-- What a submission records: the completed entry, and the text of its value or that of a
failure. -/
def Session.record (s : Session) : Record where
  expression := closeParens s.entry.trim
  result :=
    match evaluate s.mode (closeParens s.entry.trim) with
    | .ok evaluation => Display.result evaluation.value s.digits
    | .error _ => failureText

namespace Window

/-- The actions of a run, each with the window in which it is taken. -/
def trail (w : Window) : List Action → List (Window × Action)
  | [] => []
  | a :: actions => (w, a) :: trail (w.step a) actions

/-- The records of all that a run has submitted since it last cleared the history, the latest
first. -/
def log (w : Window) (actions : List Action) : List Record :=
  let kept := (w.trail actions).reverse.takeWhile fun (_, a) => !a.clearsHistory
  let submissions := kept.filter fun (w, a) => a.submits && !w.session.entry.isBlank
  submissions.map fun (w, _) => w.session.record

theorem trail_snoc (a : Action) : ∀ (actions : List Action) (w : Window),
    w.trail (actions ++ [a]) = w.trail actions ++ [(w.run actions, a)]
  | [], _ => rfl
  | b :: actions, w => by
    rw [List.cons_append, trail, trail_snoc a actions (w.step b)]
    rfl

theorem run_snoc (w : Window) (actions : List Action) (a : Action) :
    w.run (actions ++ [a]) = (w.run actions).step a := by
  rw [run, List.foldl_append]
  rfl

/-- The last action clears the log, or adds one record at its head, or leaves it. -/
theorem log_snoc (w : Window) (actions : List Action) (a : Action) :
    w.log (actions ++ [a])
      = if a.clearsHistory then []
        else if a.submits && !(w.run actions).session.entry.isBlank then
          (w.run actions).session.record :: w.log actions
        else w.log actions := by
  simp only [log, trail_snoc, List.reverse_append, List.reverse_singleton, List.singleton_append]
  by_cases hclears : a.clearsHistory = true
  · rw [if_pos hclears, List.takeWhile_cons_of_neg (by simp [hclears])]
    rfl
  rw [if_neg hclears, List.takeWhile_cons_of_pos (by simp [hclears])]
  rw [List.filter_cons]
  split <;> rfl

end Window

namespace Session

theorem submit_of_blank {s : Session} (h : s.entry.isBlank = true) : s.submit = s :=
  if_pos h

theorem submit_history (s : Session) : s.submit.history
    = if !s.entry.isBlank then (s.record :: s.history).take historyLimit else s.history := by
  rcases hentry : s.entry.isBlank with _ | _
  · rcases he : evaluate s.mode (closeParens s.entry.trim) with cause | evaluation <;>
      simp [submit, hentry, answer, record, he]
  · rw [submit_of_blank hentry]
    rfl

theorem restore_history (s : Session) (index : Nat) : (s.restore index).history = s.history := by
  unfold restore
  split
  · exact refresh_history _
  · rfl

end Session

namespace Window

theorem step_history (w : Window) (a : Action) :
    (w.step a).session.history
      = if a.clearsHistory then []
        else if a.submits && !w.session.entry.isBlank then
          (w.session.record :: w.session.history).take historyLimit
        else w.session.history := by
  cases a with
  | command c =>
    cases c with
    | assign entry => rfl
    | edit entry => exact Session.refresh_history _
    | refresh => exact Session.refresh_history _
    | submit => exact Session.submit_history _
    | clearEntry => rfl
    | clearHistory => rfl
    | reset => rfl
    | setDigits digits => exact Session.refresh_history _
    | setMode mode => exact Session.refresh_history _
    | restore index => exact Session.restore_history _ index
  | gesture g =>
    cases g with
    | idle => rfl
    | press key =>
      cases key with
      | clearEntry => rfl
      | clearHistory => rfl
      | reset => rfl
      | equals => exact Session.submit_history _
      | stages => rfl
      | _ => exact Session.refresh_history _
    | toggleMode => exact Session.refresh_history _
    | choosePrecision digits =>
      change (Session.receive _ (.choosePrecision digits)).history = w.session.history
      rw [Session.receive]
      split
      · rfl
      · exact Session.refresh_history _
    | pick index => exact Session.restore_history _ index
    | write t => exact Session.refresh_history _
    | enter => exact Session.submit_history _
    | escape => rfl

theorem take_cons_take (n : Nat) (record : Record) (records : List Record) :
    (record :: records.take n).take n = (record :: records).take n := by
  cases n with
  | zero => rfl
  | succ n => simp [List.take_take]

theorem run_history_eq_take (actions : List Action) :
    (run {} actions).session.history = (log {} actions).take historyLimit := by
  induction actions using List.reverseRecOn with
  | nil => rfl
  | append_singleton actions a ih =>
    rw [run_snoc, step_history, log_snoc, ih]
    split
    · rfl
    split
    · exact take_cons_take historyLimit _ _
    · rfl

end Window

/-- At every moment the history is as much of the log as there is room for. To submit a blank entry
changes nothing at all. -/
theorem history_eq_log (actions : List Action) :
    (Window.run {} actions).session.history = (Window.log {} actions).take 100
      ∧ ∀ s : Session, s.entry.isBlank = true → s.submit = s :=
  ⟨Window.run_history_eq_take actions, fun _ => Session.submit_of_blank⟩

/-- What was submitted before the history was cleared is gone, a failed submission is recorded, and
a blank one is not. -/
theorem history_after_clearing :
    Text.isBlank "  ".toList = true
      ∧ Session.submit { entry := "  ".toList } = { entry := "  ".toList }
      ∧ (Window.run {} [.gesture (.write "1+(2".toList), .gesture .enter,
          .gesture (.press .clearHistory), .command (.edit " (1/0".toList), .command .submit,
          .gesture (.write "  ".toList), .gesture .enter, .gesture (.pick 0),
          .command (.edit "2/3".toList), .command (.setDigits 3), .gesture (.press .equals),
          .gesture .toggleMode]).session.history
        = [⟨"2/3".toList, "0.667".toList⟩, ⟨"(1/0)".toList, "Erreur".toList⟩] := by
  have hblank : Text.isBlank "  ".toList = true := by decide
  refine ⟨hblank, (history_eq_log []).2 { entry := "  ".toList } hblank, ?_⟩
  rw [(history_eq_log _).1]
  decide +kernel

end TexCalc
