import TexCalc.Session.Window

/-!
# The preview is never stale

Whatever changes the entry, the mode or the precision either evaluates the entry again
(`upToDate_refresh`) or leaves no entry, and so an entry is shown with its own answer in every
session that is not assigned an entry behind the preview's back (`upToDate_run`). A result always
begins with a digit, a minus or the first character of what is no finite number
(`result_head`), and so no result looks like a failure. The main statement is
`preview_current`.
-/

namespace TexCalc

section Results

theorem ofNat_head (n : Nat) : ∃ c rest, Text.ofNat n = c :: rest ∧ c.isDigit = true := by
  obtain ⟨c, rest, h⟩ := List.exists_cons_of_ne_nil (Nat.toDigits_ne_nil : Nat.toDigits 10 n ≠ [])
  have hc : c ∈ Nat.toDigits 10 n := h ▸ List.mem_cons_self
  exact ⟨c, rest, h, Nat.isDigit_of_mem_toDigits (by decide) (by decide) hc⟩

theorem decimal_head (count places : Nat) :
    ∃ c rest, Decimal.text count places = c :: rest ∧ c.isDigit = true := by
  obtain ⟨c, rest, h, hc⟩ := ofNat_head (count / Nat.pow 10 places)
  unfold Decimal.text
  dsimp only
  split
  · exact ⟨c, rest, h, hc⟩
  · rw [h]
    exact ⟨c, _, rfl, hc⟩

theorem signed_head {t : Text} (h : ∃ c rest, t = c :: rest ∧ c.isDigit = true)
    (negative : Bool) (further : Text) : ∃ c rest,
      Display.finite.sign negative ++ t ++ further = c :: rest ∧ (c = '-' ∨ c.isDigit = true) := by
  obtain ⟨c, rest, rfl, hc⟩ := h
  cases negative with
  | false => exact ⟨c, rest ++ further, rfl, .inr hc⟩
  | true => exact ⟨'-', c :: rest ++ further, rfl, .inl rfl⟩

theorem finite_head (negative : Bool) (units digits : Nat) : ∃ c rest,
    Display.finite negative units digits = c :: rest ∧ (c = '-' ∨ c.isDigit = true) := by
  unfold Display.finite
  split
  · have h := signed_head (decimal_head (Display.roundedCount units digits) digits)
      (negative && Display.roundedCount units digits != 0) []
    rwa [List.append_nil] at h
  · generalize Display.roundedMantissa units digits = mantissa
    obtain ⟨count, exponent⟩ := mantissa
    exact signed_head (decimal_head count digits) negative _

/-- A result is not empty, and it does not begin as the text of a failure does. -/
theorem result_head (x : Float) (digits : Nat) :
    ∃ c rest, Display.result x digits = c :: rest ∧ c ≠ 'E' := by
  unfold Display.result
  split
  · exact ⟨'N', _, rfl, by decide⟩
  · exact ⟨'∞', _, rfl, by decide⟩
  · exact ⟨'-', _, rfl, by decide⟩
  · rename_i negative units _
    obtain ⟨c, rest, h, hc⟩ := finite_head negative units digits
    refine ⟨c, rest, h, ?_⟩
    rintro rfl
    rcases hc with hc | hc <;> cases hc

theorem result_ne (x : Float) (digits : Nat) :
    Display.result x digits ≠ [] ∧ Display.result x digits ≠ failureText := by
  obtain ⟨c, rest, h, hc⟩ := result_head x digits
  rw [h]
  exact ⟨List.cons_ne_nil c rest, fun heq => hc (List.cons.inj heq).1⟩

theorem message_ne_nil (cause : Failure) : cause.message ≠ [] := by
  cases cause <;> exact List.cons_ne_nil _ _

end Results

/-- The preview and the report of a session are those of its entry as it stands, in its mode and
with its precision. A blank entry has no preview; what it has for a report is left open. -/
structure Session.UpToDate (s : Session) : Prop where
  blank : s.entry.isBlank = true → s.preview = []
  value : s.entry.isBlank = false → ∀ evaluation, evaluate s.mode s.entry = .ok evaluation →
    s.preview = Display.result evaluation.value s.digits ∧ s.report.message = []
      ∧ s.report.texts = evaluation.trace.texts
  failure : s.entry.isBlank = false → ∀ cause, evaluate s.mode s.entry = .error cause →
    s.preview = failureText ∧ s.report.message = cause.message ∧ cause.message ≠ []
      ∧ s.report.texts = [[], [], []]

namespace Session

theorem upToDate_of_blank {s : Session} (hentry : s.entry.isBlank = true)
    (hpreview : s.preview = []) : s.UpToDate :=
  ⟨fun _ => hpreview, fun h => by simp [hentry] at h, fun h => by simp [hentry] at h⟩

theorem upToDate_of_answer {s : Session} (hentry : s.entry.isBlank = false)
    (h : (s.preview, s.report) = answer s.mode s.digits s.entry) : s.UpToDate := by
  refine ⟨fun hblank => by simp [hentry] at hblank, fun _ evaluation he => ?_, fun _ cause he => ?_⟩
  · rw [answer, he] at h
    obtain ⟨hpreview, hreport⟩ := Prod.mk.inj h
    rw [hpreview, hreport]
    exact ⟨rfl, rfl, rfl⟩
  · rw [answer, he] at h
    obtain ⟨hpreview, hreport⟩ := Prod.mk.inj h
    rw [hpreview, hreport]
    exact ⟨rfl, rfl, message_ne_nil cause, rfl⟩

/-- Whatever the session was, evaluating its entry brings it up to date. -/
theorem upToDate_refresh (s : Session) : s.refresh.UpToDate := by
  unfold refresh
  split
  · rename_i hentry
    exact upToDate_of_blank hentry rfl
  · rename_i hentry
    exact upToDate_of_answer (Bool.eq_false_iff.2 hentry) rfl

theorem upToDate_clearEntry (s : Session) : s.clearEntry.UpToDate :=
  upToDate_of_blank rfl rfl

theorem upToDate_reset (s : Session) : s.reset.UpToDate :=
  upToDate_of_blank rfl rfl

namespace UpToDate

variable {s : Session}

/-- Nothing that is shown depends on the wish for the keyboard or on the history. -/
theorem of_shown (h : s.UpToDate) (history : List Record) (focus : Bool) :
    UpToDate { s with history, focus } :=
  ⟨h.blank, h.value, h.failure⟩

theorem submit (h : s.UpToDate) : s.submit.UpToDate := by
  unfold Session.submit
  split
  · exact h
  · exact upToDate_of_blank rfl rfl

theorem restore (h : s.UpToDate) (index : Nat) : (s.restore index).UpToDate := by
  unfold Session.restore
  split
  · exact (upToDate_refresh _).of_shown _ true
  · exact h.of_shown _ true

theorem obey (h : s.UpToDate) {c : Command} (hc : ∀ entry, c ≠ .assign entry) :
    (s.obey c).UpToDate := by
  cases c with
  | assign entry => exact absurd rfl (hc entry)
  | edit entry => exact upToDate_refresh _
  | refresh => exact upToDate_refresh s
  | submit => exact h.submit
  | clearEntry => exact upToDate_clearEntry s
  | clearHistory => exact h.of_shown [] true
  | reset => exact upToDate_reset s
  | setDigits digits => exact (upToDate_refresh _).of_shown _ true
  | setMode mode => exact (upToDate_refresh _).of_shown _ true
  | restore index => exact h.restore index

theorem press (h : s.UpToDate) (key : Key) : (s.press key).UpToDate := by
  cases key with
  | clearEntry => exact upToDate_clearEntry s
  | clearHistory => exact h.of_shown [] true
  | reset => exact upToDate_reset s
  | equals => exact h.submit
  | stages => exact h
  | _ => exact (upToDate_refresh _).of_shown _ true

theorem receive (h : s.UpToDate) (g : Gesture) : (s.receive g).UpToDate := by
  cases g with
  | idle => exact h
  | press key => exact h.press key
  | toggleMode => exact (upToDate_refresh _).of_shown _ false
  | choosePrecision digits =>
    rw [Session.receive]
    split
    · exact h
    · exact (upToDate_refresh _).of_shown _ true
  | pick index => exact (h.restore index).of_shown _ false
  | write t => exact upToDate_refresh _
  | enter => exact h.submit
  | escape => exact (upToDate_clearEntry s).of_shown _ false

end UpToDate

end Session

theorem upToDate_step {w : Window} (h : w.session.UpToDate) {a : Action}
    (ha : ∀ entry, a ≠ .command (.assign entry)) : (w.step a).session.UpToDate := by
  cases a with
  | command c => exact h.obey fun entry hc => ha entry (by rw [hc])
  | gesture g => exact (h.of_shown _ false).receive g

theorem upToDate_run : ∀ {actions : List Action} {w : Window}, w.session.UpToDate →
    (∀ entry, .command (.assign entry) ∉ actions) → (w.run actions).session.UpToDate
  | [], _, h, _ => h
  | a :: actions, w, h, ha => by
    have hstep : (w.step a).session.UpToDate :=
      upToDate_step h fun entry heq => ha entry (heq ▸ List.mem_cons_self)
    change ((w.step a).run actions).session.UpToDate
    exact upToDate_run hstep fun entry hmem => ha entry (List.mem_cons_of_mem a hmem)

theorem upToDate_start : (Window.session {}).UpToDate :=
  Session.upToDate_of_blank rfl rfl

theorem preview_eq_failureText_iff {s : Session} (h : s.UpToDate) : s.preview = failureText
    ↔ s.entry.isBlank = false ∧ ∃ cause, evaluate s.mode s.entry = .error cause := by
  rcases hentry : s.entry.isBlank with _ | _
  · rcases he : evaluate s.mode s.entry with cause | evaluation
    · exact iff_of_true (h.failure hentry cause he).1 ⟨rfl, cause, rfl⟩
    · rw [(h.value hentry evaluation he).1]
      refine iff_of_false (result_ne evaluation.value s.digits).2 ?_
      rintro ⟨_, _, hcause⟩
      cases hcause
  · rw [h.blank hentry]
    exact iff_of_false (by decide) fun ⟨hnonblank, _⟩ => by cases hnonblank

/-- Without an assignment behind its back the preview is that of the entry at every moment, and it
reads as a failure only where the entry has no value. In every session the error or the stages of
the evaluation are empty, which the type of a report carries: it has one of them or neither. -/
theorem preview_current :
    (∀ actions : List Action, (∀ entry, .command (.assign entry) ∉ actions) →
      (Window.run {} actions).session.UpToDate
        ∧ ((Window.run {} actions).session.preview = failureText
          ↔ (Window.run {} actions).session.entry.isBlank = false
            ∧ ∃ cause, evaluate (Window.run {} actions).session.mode
              (Window.run {} actions).session.entry = .error cause))
      ∧ (∀ s : Session, s.report.message = [] ∨ s.report.texts = [[], [], []])
      ∧ ∀ x digits, Display.result x digits ≠ [] ∧ Display.result x digits ≠ failureText := by
  refine ⟨fun actions hactions => ?_, fun s => ?_, result_ne⟩
  · have h := upToDate_run upToDate_start hactions
    exact ⟨h, preview_eq_failureText_iff h⟩
  · cases s.report with
    | nothing => exact .inl rfl
    | stages trace => exact .inl rfl
    | failure cause => exact .inr rfl

/-- An escape leaves the error of `1/0` behind and no preview; the submission that is picked from
the history later is shown with its value again. -/
theorem preview_current_after_pick :
    (∀ entry, Action.command (.assign entry) ∉ [.command (.edit "1/0".toList), .gesture .escape,
        .gesture (.write "(1+\\frac{4}{2}".toList), .gesture .enter, .gesture (.pick 0)])
      ∧ (Window.run {} [.command (.edit "1/0".toList), .gesture .escape,
        .gesture (.write "(1+\\frac{4}{2}".toList), .gesture .enter,
        .gesture (.pick 0)]).session.UpToDate
      ∧ (Window.run {} [.command (.edit "1/0".toList), .gesture .escape,
        .gesture (.write "(1+\\frac{4}{2}".toList), .gesture .enter,
        .gesture (.pick 0)]).session.preview = "3".toList := by
  have hactions : ∀ entry, Action.command (.assign entry) ∉ [.command (.edit "1/0".toList),
      .gesture .escape, .gesture (.write "(1+\\frac{4}{2}".toList), .gesture .enter,
      .gesture (.pick 0)] := by
    simp
  exact ⟨hactions, (preview_current.1 _ hactions).1, by decide +kernel⟩

end TexCalc
