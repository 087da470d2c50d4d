import TexCalc.Display
import TexCalc.Evaluation

/-!
# A session at the calculator

The entry that is being written, its mode and the number of decimals, what its evaluation shows,
and the log of what was submitted. The preview is the answer to the entry as it stands; a
submission first trims the entry and closes the parentheses left open in it. Clearing and
submitting take the preview away and leave the report of the last evaluation.
-/

namespace TexCalc

structure Record where
  expression : Text
  result : Text
  deriving DecidableEq

/-- What the last evaluation tells besides the text of its result. -/
inductive Report
  | nothing
  | stages (trace : Trace)
  | failure (cause : Failure)
  deriving DecidableEq

namespace Report

def message : Report → Text
  | .failure cause => cause.message
  | _ => []

/-- The three stages of an evaluation, empty texts if there are none to show. -/
def texts : Report → List Text
  | .stages trace => trace.texts
  | _ => [[], [], []]

end Report

/-- The preview and the result of what has no value. -/
def failureText : Text :=
  "Erreur".toList

def defaultDigits : Nat := 10

def maxDigits : Nat := 17

def historyLimit : Nat := 100

/-- Appends the closing parentheses that a text has too few of. -/
def closeParens (t : Text) : Text :=
  t ++ List.replicate (t.count '(' - t.count ')') ')'

/-- What is shown for a text: its result, and the report on its evaluation. -/
def answer (mode : Mode) (digits : Nat) (t : Text) : Text × Report :=
  match evaluate mode t with
  | .ok evaluation => (Display.result evaluation.value digits, .stages evaluation.trace)
  | .error cause => (failureText, .failure cause)

/-- A session; the history has the latest submission first, and `focus` asks for the keyboard to
go back to the entry. -/
structure Session where
  entry : Text := []
  mode : Mode := .latex
  digits : Nat := defaultDigits
  preview : Text := []
  report : Report := .nothing
  history : List Record := []
  focus : Bool := true
  deriving DecidableEq

namespace Session

/-- Brings the preview and the report up to date; a blank entry has neither. -/
def refresh (s : Session) : Session :=
  if s.entry.isBlank then { s with preview := [], report := .nothing }
  else
    let (preview, report) := answer s.mode s.digits s.entry
    { s with preview, report }

@[simp] theorem refresh_history (s : Session) : s.refresh.history = s.history := by
  unfold refresh
  split <;> rfl

def assign (s : Session) (entry : Text) : Session :=
  { s with entry }

def edit (s : Session) (entry : Text) : Session :=
  (s.assign entry).refresh

/-- Evaluates the completed entry and records it; a blank entry changes nothing. -/
def submit (s : Session) : Session :=
  if s.entry.isBlank then s
  else
    let expression := closeParens s.entry.trim
    let (result, report) := answer s.mode s.digits expression
    { s with
      entry := []
      preview := []
      report
      history := (⟨expression, result⟩ :: s.history).take historyLimit
      focus := true }

def clearEntry (s : Session) : Session :=
  { s with entry := [], preview := [], focus := true }

def clearHistory (s : Session) : Session :=
  { s with history := [], focus := true }

/-- Back to the beginning, except that the mode stays. -/
def reset (s : Session) : Session :=
  { mode := s.mode }

def setDigits (s : Session) (digits : Nat) : Session :=
  { { s with digits := min digits maxDigits }.refresh with focus := true }

def setMode (s : Session) (mode : Mode) : Session :=
  { { s with mode }.refresh with focus := true }

/-- Takes the expression of a submission back into the entry, if there is such a one. -/
def restore (s : Session) (index : Nat) : Session :=
  match s.history[index]? with
  | some record => { s.edit record.expression with focus := true }
  | none => { s with focus := true }

end Session

end TexCalc
