import TexCalc.Session.Keypad

/-!
# The window

A session is changed by commands, and by what the user does in a window on it. The window gives
the keyboard back to the entry before anything happens in it, so the wish for it is gone by then.
Of its own the window keeps only whether the panel with the stages of the evaluation is open.
-/

namespace TexCalc

/-- What can be asked of a session directly. -/
inductive Command
  | assign (entry : Text)
  | edit (entry : Text)
  | refresh
  | submit
  | clearEntry
  | clearHistory
  | reset
  | setDigits (digits : Nat)
  | setMode (mode : Mode)
  | restore (index : Nat)
  deriving DecidableEq

/-- What the user can do in the window. -/
inductive Gesture
  | idle
  | press (key : Key)
  | toggleMode
  | choosePrecision (digits : Nat)
  | pick (index : Nat)
  /-- Writes at the end of the entry by the keyboard. -/
  | write (t : Text)
  | enter
  | escape
  deriving DecidableEq

inductive Action
  | command (c : Command)
  | gesture (g : Gesture)
  deriving DecidableEq

def Mode.other : Mode → Mode
  | .ascii => .latex
  | .latex => .ascii

namespace Session

def obey (s : Session) : Command → Session
  | .assign entry => s.assign entry
  | .edit entry => s.edit entry
  | .refresh => s.refresh
  | .submit => s.submit
  | .clearEntry => s.clearEntry
  | .clearHistory => s.clearHistory
  | .reset => s.reset
  | .setDigits digits => s.setDigits digits
  | .setMode mode => s.setMode mode
  | .restore index => s.restore index

/-- What a gesture does to a session whose wish for the keyboard is already granted. A choice of
the precision that is in force is no change. -/
def receive (s : Session) : Gesture → Session
  | .idle => s
  | .press key => s.press key
  | .toggleMode => unfocused (s.setMode s.mode.other)
  | .choosePrecision digits =>
    if min digits maxDigits = s.digits then s else s.setDigits digits
  | .pick index => unfocused (s.restore index)
  | .write t => s.insert t
  | .enter => s.submit
  | .escape => unfocused s.clearEntry
where
  unfocused (s : Session) : Session :=
    { s with focus := false }

end Session

structure Window where
  session : Session := {}
  stagesOpen : Bool := false
  deriving DecidableEq

namespace Window

def step (w : Window) : Action → Window
  | .command c => { w with session := w.session.obey c }
  | .gesture g =>
    { session := { w.session with focus := false }.receive g
      stagesOpen := if g = .press .stages then !w.stagesOpen else w.stagesOpen }

def run (w : Window) (actions : List Action) : Window :=
  actions.foldl step w

def row (record : Record) : Text :=
  record.expression ++ "  = ".toList ++ record.result

/-- The texts in the window from top to bottom, those on keys left out. -/
def texts (w : Window) : List Text :=
  ["Calculatrice LaTeX".toList, "Historique :".toList]
    ++ (if w.session.history = [] then ["(vide)".toList] else w.session.history.map row)
    ++ ["Entrée :".toList, "=".toList, w.session.preview, "Précision :".toList]
    ++ if w.stagesOpen then panel w.session.report else []
where
  panel (report : Report) : List Text :=
    (["Canonique :".toList, "Jetons :".toList, "RPN :".toList].zip report.texts).flatMap
        (fun (title, t) => [title, t])
      ++ match report with
        | .failure cause => ["Erreur :".toList, cause.message]
        | _ => []

end Window

end TexCalc
