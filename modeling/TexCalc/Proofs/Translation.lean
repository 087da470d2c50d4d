import TexCalc.Latex.Fragment
import TexCalc.Proofs.Rules

/-!
# The rewriting translates

Each rule keeps what a text stands for and resolves its own macros (`Translates.step`), so that in
the end the text is what it stands for. A group is only taken up once it has no braces in it, and
that is when all rules for what may stand in it have been applied (`Translates.braceless`); until
then the rules leave its command as it stands. The main statement is `toCanonical_of_translates`.
-/

namespace TexCalc.Latex

theorem blank_plain {gap : Text} (blank : gap.isBlank = true) :
    ∀ c ∈ gap, c ≠ '\\' ∧ isBrace c = false := by
  intro c hc
  have hblank := List.all_eq_true.1 blank c hc
  have hall : blanks.all (fun c => c != '\\' && !isBrace c) = true := by decide
  simpa using List.all_eq_true.1 hall c (by simpa [isBlank] using hblank)

theorem name_plain (f : Func) : ∀ c ∈ f.name, c ≠ '\\' ∧ isBrace c = false := by
  intro c hc
  have hletter := f.isAlpha_of_mem_name c hc
  simp only [isBrace, Bool.or_eq_false_iff, beq_eq_false_iff_ne]
  refine ⟨?_, ?_, ?_⟩ <;> rintro rfl <;> cases hletter

section Turns

variable {rule : Rule} {name new gap a a' t t' u u' : Text}

/-- The rule turns `t` into `t'` wherever `t` stands. -/
def Rule.Turns (rule : Rule) (t t' : Text) : Prop :=
  ∀ s, rule.rewrite (t ++ s) = t' ++ rule.rewrite s

namespace Rule.Turns

theorem nil : rule.Turns [] [] :=
  fun _ => rfl

theorem append (ht : rule.Turns t t') (hu : rule.Turns u u') :
    rule.Turns (t ++ u) (t' ++ u') := by
  intro s
  rw [List.append_assoc, ht, hu, List.append_assoc]

theorem cons {c : Char} (hc : c ≠ '\\') (ht : rule.Turns t t') :
    rule.Turns (c :: t) (c :: t') := by
  intro s
  rw [List.cons_append, rewrite_cons hc, ht]
  rfl

theorem plain : ∀ {w : Text}, (∀ c ∈ w, c ≠ '\\') → rule.Turns w w
  | [], _ => nil
  | c :: _, h => cons (h c List.mem_cons_self) (plain fun d hd => h d (List.mem_cons_of_mem c hd))

/-- Where the rule passes the backslash stays, and the text behind it is rewritten. -/
theorem pass (h : ∀ s, rule.apply (t ++ s) = none) (ht : rule.Turns t t') :
    rule.Turns ('\\' :: t) ('\\' :: t') := by
  intro s
  rw [List.cons_append, rewrite_none (h s), ht]
  rfl

theorem take (h : ∀ s, rule.apply (t ++ s) = some (new, s)) :
    rule.Turns ('\\' :: t) new := by
  intro s
  rw [List.cons_append, rewrite_some (h s)]

theorem eq (h : rule.Turns t t') : rule.rewrite t = t' := by
  have hnil := h []
  rwa [List.append_nil, rewrite_nil, List.append_nil] at hnil

theorem inGroup (blank : gap.isBlank = true) (ha : rule.Turns a a') :
    rule.Turns (group gap a) (group gap a') :=
  append (plain fun c hc => (blank_plain blank c hc).1) <| cons (by decide) <|
    append ha (plain (by simp))

/-- What the rule takes up and what it writes for it, in front of a text. -/
theorem takeIn (ht : rule.Turns t t') (h : ∀ s, rule.apply (name ++ s) = some (new, s)) :
    rule.Turns ('\\' :: name ++ t) (new ++ t') :=
  append (take h) ht

theorem passWord (hname : ∀ c ∈ name, c ≠ '\\') (h : ∀ s, rule.apply (name ++ s) = none)
    (ht : rule.Turns t t') : rule.Turns ('\\' :: name ++ t) ('\\' :: name ++ t') :=
  append (pass h (plain hname)) ht

/-- Where the rule passes a command its group is rewritten as it stands. -/
theorem passGroup (hname : ∀ c ∈ name, c ≠ '\\') (blank : gap.isBlank = true)
    (h : ∀ s, rule.apply (name ++ group gap a ++ s) = none) (ha : rule.Turns a a')
    (ht : rule.Turns t t') :
    rule.Turns ('\\' :: name ++ group gap a ++ t) ('\\' :: name ++ group gap a' ++ t') :=
  append (pass h (append (plain hname) (inGroup blank ha))) ht

end Rule.Turns

end Turns

theorem find?_group {gap inner : Text} (blank : gap.isBlank = true) (rest : Text) :
    (group gap inner ++ rest).find? isBrace = some '{' := by
  have hgap : gap.find? isBrace = none :=
    List.find?_eq_none.2 fun c hc => by simp [(blank_plain blank c hc).2]
  rw [group, List.append_assoc, List.find?_append, hgap]
  rfl

namespace EndsWord

variable {t u : Text}

theorem nil : EndsWord [] :=
  .inl rfl

theorem cons {c : Char} (hc : c ≠ '\\' ∧ isWordChar c = false) : EndsWord (c :: t) :=
  .inl (by simp [hc])

theorem append (ht : EndsWord t) (hu : EndsWord u) : EndsWord (t ++ u) := by
  cases t with
  | nil => exact hu
  | cons c t =>
    rcases ht with hc | ht
    · exact .inl hc
    · exact .inr (ht.trans (List.prefix_append _ u))

theorem head (h : EndsWord t) : t.head?.any isWordChar = false := by
  rcases h with h | ⟨rest, rfl⟩
  · cases t with
    | nil => rfl
    | cons c t => exact (by simpa using h : c ≠ '\\' ∧ isWordChar c = false).2
  · rfl

end EndsWord

namespace Translates

variable {resolved level : Nat} {t u : Text}

theorem eq_nil_iff (h : Translates resolved level t u) : t = [] ↔ u = [] := by
  cases h <;> simp [group]

/-- Where the rules for all that may stand in a text have been applied, it has no braces. -/
theorem braceless (h : Translates resolved level t u) (hlevel : level ≤ resolved) :
    ∀ c ∈ t, isBrace c = false := by
  have hword : ∀ {w t : Text}, w.all (!isBrace ·) = true → (∀ c ∈ t, isBrace c = false) →
      ∀ c ∈ w ++ t, isBrace c = false := by
    intro w t hw ht
    refine List.forall_mem_append.2 ⟨fun c hc => ?_, ht⟩
    simpa using List.all_eq_true.1 hw c hc
  induction h with
  | nil => simp
  | char hc _ ih => exact List.forall_mem_cons.2 ⟨hc.2, ih hlevel⟩
  | opening _ _ ih => exact hword (by decide) (ih hlevel)
  | closing _ _ ih => exact hword (by decide) (ih hlevel)
  | pi _ _ _ ih => exact hword (by decide) (ih hlevel)
  | fraction => omega
  | root => omega
  | call => omega

/-- A text without braces has no groups, so it stands for the same at every level and once the rules
for groups have been applied. -/
theorem of_braceless (h : Translates resolved level t u) (ht : ∀ c ∈ t, isBrace c = false)
    {resolved' level' : Nat} (hresolved : resolved' ≤ 3) : Translates resolved' level' t u := by
  induction h with
  | nil => exact .nil
  | char hc _ ih => exact .char hc (ih fun c hc => ht c (List.mem_cons_of_mem _ hc))
  | opening _ _ ih =>
    exact .opening (by omega) (ih fun c hc => ht c (List.mem_append_right _ hc))
  | closing _ _ ih =>
    exact .closing (by omega) (ih fun c hc => ht c (List.mem_append_right _ hc))
  | pi _ ends _ ih =>
    exact .pi (by omega) ends (ih fun c hc => ht c (List.mem_append_right _ hc))
  | fraction => exact absurd (ht '{' (by simp [group])) (by decide)
  | root => exact absurd (ht '{' (by simp [group])) (by decide)
  | call => exact absurd (ht '{' (by simp [group])) (by decide)

/-- The first brace in a text opens a group. -/
theorem find?_brace (h : Translates resolved level t u) :
    t.find? isBrace = none ∨ t.find? isBrace = some '{' := by
  induction h with
  | nil => exact .inl rfl
  | char hc _ ih => rwa [List.find?_cons_of_neg (by simp [hc.2])]
  | opening _ _ ih => exact ih
  | closing _ _ ih => exact ih
  | pi _ _ _ ih => exact ih
  | fraction _ _ blank =>
    rw [List.append_assoc, List.append_assoc]
    exact .inr (find?_group blank _)
  | root _ _ blank =>
    rw [List.append_assoc]
    exact .inr (find?_group blank _)
  | call f _ _ blank =>
    have hname : ('\\' :: f.name).find? isBrace = none := by cases f <;> rfl
    rw [List.append_assoc, List.find?_append, hname]
    exact .inr (find?_group blank _)

/-- Two texts side by side stand for what they stand for alone if the first one's last word ends
with it. -/
theorem append {t' u' : Text} (h : Translates resolved level t u)
    (h' : Translates resolved level t' u') (ends : EndsWord t') :
    Translates resolved level (t ++ t') (u ++ u') := by
  induction h with
  | nil => exact h'
  | char hc _ ih => exact .char hc (ih h')
  | opening h _ ih => exact .opening h (ih h')
  | closing h _ ih => exact .closing h (ih h')
  | pi h hends _ ih => exact .pi h (hends.append ends) (ih h')
  | fraction h hlevel blank blank' ha hb above below _ _ _ ih =>
    have := Translates.fraction h hlevel blank blank' ha hb above below (ih h')
    simpa using this
  | root h hlevel blank ha argument _ _ ih =>
    have := Translates.root h hlevel blank ha argument (ih h')
    simpa using this
  | call f h hlevel blank ha argument _ _ ih =>
    have := Translates.call f h hlevel blank ha argument (ih h')
    simpa using this

end Translates

section Macros

variable {k : Nat} {rule : Rule} {s : Text}

/-- No rule before that of the opening delimiters takes one up. -/
theorem apply_opening (hrule : rules[k]? = some rule) (hk : k < 3) :
    rule.apply ("left(".toList ++ s) = none := by
  obtain rfl | rfl | rfl : k = 0 ∨ k = 1 ∨ k = 2 := by omega
  all_goals
    cases hrule
    rfl

theorem apply_closing (hrule : rules[k]? = some rule) (hk : k < 4) :
    rule.apply ("right)".toList ++ s) = none := by
  obtain rfl | rfl | rfl | rfl : k = 0 ∨ k = 1 ∨ k = 2 ∨ k = 3 := by omega
  all_goals
    cases hrule
    rfl

theorem apply_pi (hrule : rules[k]? = some rule) (hk : k < 5) :
    rule.apply ("pi".toList ++ s) = none := by
  obtain rfl | rfl | rfl | rfl | rfl : k = 0 ∨ k = 1 ∨ k = 2 ∨ k = 3 ∨ k = 4 := by omega
  all_goals
    cases hrule
    rfl

theorem fraction_apply_name (f : Func) : fraction.apply (f.name ++ s) = none := by
  cases f <;> rfl

theorem root_apply_name {f : Func} (hf : f ≠ .sqrt) : root.apply (f.name ++ s) = none := by
  cases f <;> first | rfl | exact absurd rfl hf

/-- A group in which another one begins is not taken up. -/
theorem root_apply_nested {gap a : Text} (blank : gap.isBlank = true)
    (ha : a.find? isBrace = some '{') :
    root.apply ("sqrt".toList ++ group gap a ++ s) = none := by
  have hgroup : group? (skipBlanks (group gap a ++ s)) = none := by
    rw [group, List.append_assoc, skipBlanks_append blank rfl]
    rcases hg : group? _ with _ | ⟨inner, left⟩
    · rfl
    obtain ⟨hinner, heq⟩ := group?_eq_some_iff.1 hg
    have hinside : a ++ '}' :: s = inner ++ '}' :: left := by simpa using heq
    have hfind := congrArg (List.find? isBrace) hinside
    have hnone : inner.find? isBrace = none :=
      List.find?_eq_none.2 fun c hc => by simp [hinner.braceless c hc]
    rw [List.find?_append, List.find?_append, ha, hnone] at hfind
    cases hfind
  rw [List.append_assoc]
  change (word? "sqrt".toList ("sqrt".toList ++ (group gap a ++ s)) >>= _) = none
  rw [word?_append]
  change (group? (skipBlanks (group gap a ++ s)) >>= _) = none
  rw [hgroup]
  rfl

theorem fraction_apply_groups {gap gap' a b : Text} (blank : gap.isBlank = true)
    (blank' : gap'.isBlank = true) (ha : IsInner a) (hb : IsInner b) :
    fraction.apply ("frac".toList ++ group gap a ++ group gap' b ++ s)
      = some ('(' :: a ++ ")/(".toList ++ b ++ [')'], s) :=
  fraction_apply_iff.2 ⟨a, b, _, _, .intro blank ha, .intro blank' hb, rfl, rfl⟩

theorem root_apply_group {gap a : Text} (blank : gap.isBlank = true) (ha : IsInner a) :
    root.apply ("sqrt".toList ++ group gap a ++ s) = some ("sqrt(".toList ++ a ++ [')'], s) :=
  root_apply_iff.2 ⟨a, _, .intro blank ha, rfl, rfl⟩

theorem callOf?_ne {f f' : Func} (h : f' ≠ f) : callOf? f' (f.name ++ s) = none := by
  cases f' <;> cases f <;> first | rfl | exact absurd rfl h

theorem call_apply_group (f : Func) {gap a : Text} (blank : gap.isBlank = true) (ha : IsInner a) :
    call.apply (f.name ++ group gap a ++ s) = some (f.name ++ '(' :: a ++ [')'], s) := by
  have hf : callOf? f (f.name ++ group gap a ++ s) = some (f.name ++ '(' :: a ++ [')'], s) := by
    have hgroup : group? (skipBlanks (group gap a ++ s)) = some (a, s) :=
      group?_skipBlanks_iff.2 ⟨_, .intro blank ha, rfl⟩
    simp [callOf?, word?_append, argument?, hgroup]
  rcases hcall : call.apply (f.name ++ group gap a ++ s) with _ | ⟨new, left⟩
  · have hnone := List.findSome?_eq_none_iff.1 hcall f (by cases f <;> decide)
    rw [hf] at hnone
    cases hnone
  · obtain ⟨f', -, hf'⟩ := List.exists_of_findSome?_eq_some hcall
    by_cases hne : f' = f
    · rw [← hf', hne, hf]
    · rw [List.append_assoc, callOf?_ne hne] at hf'
      cases hf'

end Macros

theorem EndsWord.rewrite {k : Nat} {rule : Rule} (hrule : rules[k]? = some rule) (hk : k < 5)
    {t : Text} (h : EndsWord t) : EndsWord (rule.rewrite t) := by
  rcases h with h | ⟨rest, rfl⟩
  · cases t with
    | nil =>
      rw [Rule.rewrite_nil]
      exact nil
    | cons c t =>
      have hc : c ≠ '\\' ∧ isWordChar c = false := by simpa using h
      rw [Rule.rewrite_cons hc.1]
      exact cons hc
  change EndsWord (rule.rewrite ('\\' :: ("right)".toList ++ rest)))
  by_cases hright : k = 4
  · subst hright
    cases hrule
    rw [Rule.rewrite_some (rfl : _ = some ([')'], rest))]
    exact cons (by decide)
  · rw [Rule.rewrite_none (apply_closing hrule (by omega)), Rule.Turns.plain (by simp)]
    exact .inr (List.prefix_append _ _)

namespace Translates

variable {resolved level : Nat} {t u : Text}

theorem parenthesised {a a' : Text} (ha : Translates resolved level a a')
    (ht : Translates resolved level t u) :
    Translates resolved level ('(' :: a ++ ')' :: t) ('(' :: a' ++ ')' :: u) :=
  .char (by decide) (ha.append (.char (by decide) ht) (.cons (by decide)))

theorem written {name a a' : Text} (hname : ∀ c ∈ name, c ≠ '\\' ∧ isBrace c = false)
    (ha : Translates resolved level a a') (ht : Translates resolved level t u) :
    Translates resolved level (name ++ '(' :: a ++ ')' :: t) (name ++ '(' :: a' ++ ')' :: u) := by
  have := plain hname (ha.parenthesised ht)
  simpa using this

/-- A group that the rule takes up stands between parentheses from then on. -/
theorem takeGroup {k : Nat} {rule : Rule} {name gap a a' t' : Text} {inside : Nat} (hk : k < 3)
    (hname : ∀ c ∈ name, c ≠ '\\' ∧ isBrace c = false) (hinner : IsInner a)
    (htakes : ∀ s, rule.apply (name ++ group gap a ++ s) = some (name ++ '(' :: a ++ [')'], s))
    (argument : Translates k inside a a') (ht' : Translates (k + 1) level t' u)
    (hturns : rule.Turns t t') :
    ∃ t₁, Translates (k + 1) level t₁ (name ++ '(' :: a' ++ ')' :: u)
      ∧ rule.Turns ('\\' :: name ++ group gap a ++ t) t₁ := by
  have hwritten := (argument.of_braceless hinner.braceless (by omega)).written hname ht'
  exact ⟨_, hwritten, by simpa using hturns.takeIn htakes⟩

/-- The rule of a call takes it up, and that of a root a square root without braces in it; the
others leave its group to what stands in it. -/
theorem apply_call {k : Nat} {rule : Rule} (hrule : rules[k]? = some rule) (hk : k ≤ 2) (f : Func)
    {gap a a' : Text} (blank : gap.isBlank = true) (ha : a ≠ []) (argument : Translates k 2 a a') :
    (IsInner a ∧ ∀ s, rule.apply (f.name ++ group gap a ++ s)
        = some (f.name ++ '(' :: a ++ [')'], s))
      ∨ (k < 2 ∧ ∀ s, rule.apply (f.name ++ group gap a ++ s) = none) := by
  obtain rfl | rfl | rfl : k = 0 ∨ k = 1 ∨ k = 2 := by omega
  · cases hrule
    exact .inr ⟨by omega, fun s => by rw [List.append_assoc, fraction_apply_name]⟩
  · cases hrule
    by_cases hf : f = .sqrt
    · subst hf
      rcases argument.find?_brace with hnone | hbrace
      · have hinner : IsInner a := ⟨ha, fun c hc => by simpa using List.find?_eq_none.1 hnone c hc⟩
        exact .inl ⟨hinner, fun s => root_apply_group blank hinner⟩
      · exact .inr ⟨by omega, fun s => root_apply_nested blank hbrace⟩
    · exact .inr ⟨by omega, fun s => by rw [List.append_assoc, root_apply_name hf]⟩
  · cases hrule
    have hinner : IsInner a := ⟨ha, argument.braceless le_rfl⟩
    exact .inl ⟨hinner, fun s => call_apply_group f blank hinner⟩

/-- One rule: what the text stands for stays, and the macros of the rule are gone. -/
theorem step {k : Nat} {rule : Rule} (hrule : rules[k]? = some rule) (hk : k < 5)
    (h : Translates k level t u) : ∃ t', Translates (k + 1) level t' u ∧ rule.Turns t t' := by
  -- on the pieces of the text; the rule takes up a piece of its own and passes the other ones
  induction h with
  | nil => exact ⟨[], .nil, .nil⟩
  | @char _ c _ _ hc _ ih =>
    obtain ⟨t', ht', hturns⟩ := ih
    exact ⟨c :: t', .char hc ht', hturns.cons hc.1⟩
  | opening h _ ih =>
    obtain ⟨t', ht', hturns⟩ := ih
    by_cases hown : k = 3
    · subst hown
      cases hrule
      exact ⟨['('] ++ t', .char (by decide) ht', .takeIn hturns fun _ => rfl⟩
    · exact ⟨_, .opening (by omega) ht',
        .passWord (by simp) (fun _ => apply_opening hrule (by omega)) hturns⟩
  | closing h _ ih =>
    obtain ⟨t', ht', hturns⟩ := ih
    by_cases hown : k = 4
    · subst hown
      cases hrule
      exact ⟨[')'] ++ t', .char (by decide) ht', .takeIn hturns fun _ => rfl⟩
    · exact ⟨_, .closing (by omega) ht',
        .passWord (by simp) (fun _ => apply_closing hrule (by omega)) hturns⟩
  | pi h ends _ ih =>
    obtain ⟨t', ht', hturns⟩ := ih
    -- the word also ends where the rewriting stands that takes the place of what is behind it
    have hends := ends.rewrite hrule hk
    rw [hturns.eq] at hends
    exact ⟨_, .pi (by omega) hends ht',
      .passWord (by simp) (fun _ => apply_pi hrule hk) hturns⟩
  | @fraction _ gap gap' a a' b b' t u h hlevel blank blank' ha hb above below _ _ _ ih =>
    obtain ⟨t', ht', hturns⟩ := ih
    subst h
    cases hrule
    have hainner : IsInner a := ⟨ha, above.braceless le_rfl⟩
    have hbinner : IsInner b := ⟨hb, below.braceless le_rfl⟩
    have hbelow := (below.of_braceless hbinner.braceless (by omega)).parenthesised ht'
    have habove := (above.of_braceless hainner.braceless (by omega)).parenthesised
      (.char (c := '/') (by decide) hbelow)
    have htakes := hturns.takeIn fun _ => fraction_apply_groups blank blank' hainner hbinner
    exact ⟨_, by simpa using habove, by simpa using htakes⟩
  | @root _ gap a a' t u h hlevel blank ha argument _ iharg ih =>
    obtain ⟨t', ht', hturns⟩ := ih
    by_cases hown : k = 1
    · subst hown
      cases hrule
      have hinner : IsInner a := ⟨ha, argument.braceless le_rfl⟩
      exact takeGroup (by omega) (name_plain .sqrt) hinner
        (fun _ => root_apply_group blank hinner) argument ht' hturns
    · -- fractions in the root are turned where they stand
      obtain rfl : k = 0 := by omega
      cases hrule
      obtain ⟨a₁, ha₁, haturns⟩ := iharg
      have hne : a₁ ≠ [] := by rwa [Ne, ha₁.eq_nil_iff, ← argument.eq_nil_iff]
      exact ⟨_, .root (by omega) hlevel blank hne ha₁ ht',
        .passGroup (by simp) blank (fun _ => rfl) haturns hturns⟩
  | @call _ gap a a' t u f h hlevel blank ha argument _ iharg ih =>
    obtain ⟨t', ht', hturns⟩ := ih
    rcases apply_call hrule h f blank ha argument with ⟨hinner, htakes⟩ | ⟨hk2, hpasses⟩
    · exact takeGroup (by omega) (name_plain f) hinner htakes argument ht' hturns
    · obtain ⟨a₁, ha₁, haturns⟩ := iharg
      have hne : a₁ ≠ [] := by rwa [Ne, ha₁.eq_nil_iff, ← argument.eq_nil_iff]
      exact ⟨_, .call f (by omega) hlevel blank hne ha₁ ht',
        .passGroup (fun c hc => (name_plain f c hc).1) blank hpasses haturns hturns⟩

/-- The rules up to the one for closing delimiters. -/
theorem run {n : Nat} (hn : n ≤ 5) (h : Translates 0 level t u) :
    Translates n level ((rules.take n).foldl (fun t rule => rule.rewrite t) t) u := by
  induction n with
  | zero => exact h
  | succ n ih =>
    obtain ⟨rule, hrule⟩ : ∃ rule, rules[n]? = some rule :=
      ⟨_, List.getElem?_eq_getElem (show n < 7 by omega)⟩
    obtain ⟨t', ht', hturns⟩ := (ih (by omega)).step hrule (by omega)
    rw [List.take_add_one, hrule, List.foldl_append]
    change Translates (n + 1) level (rule.rewrite _) u
    rwa [hturns.eq]

/-- The rules for everything but `\pi` leave texts in which only the name has to be written. -/
theorem pi_rewrite (h : Translates 5 level t u) : Latex.pi.rewrite t = u := by
  induction h with
  | nil => exact Rule.rewrite_nil
  | char hc _ ih => rw [Rule.rewrite_cons hc.1, ih]
  | @pi _ t _ _ ends _ ih =>
    have hpi : Latex.pi.apply ("pi".toList ++ t) = some ("pi".toList, t) :=
      pi_apply_iff.2 ⟨rfl, rfl, ends.head⟩
    rw [List.cons_append, Rule.rewrite_some hpi, ih]
  | opening | closing | fraction | root | call => omega

theorem command_rewrite (h : Translates 5 level t u) : command.rewrite u = u := by
  refine (Rule.Turns.plain ?_).eq
  induction h with
  | nil => simp
  | char hc _ ih => exact List.forall_mem_cons.2 ⟨hc.1, ih⟩
  | pi _ _ _ ih => exact List.forall_mem_append.2 ⟨by simp, ih⟩
  | opening | closing | fraction | root | call => omega

end Translates

/-- The preprocessing of LaTeX that stands for a text, with fractions in roots and both in calls,
gives that text. -/
theorem toCanonical_of_translates {t u : Text} (h : Translates 0 3 t u) : toCanonical t = u := by
  have hfive := h.run le_rfl
  change command.rewrite (pi.rewrite ((rules.take 5).foldl (fun t rule => rule.rewrite t) t)) = u
  rw [hfive.pi_rewrite, hfive.command_rewrite]

/-- A call with a root and with parentheses in it, where the root has a fraction in it. -/
theorem toCanonical_nested_call :
    Translates 0 3
        ("\\sin".toList ++ group [' '] ("\\sqrt".toList ++ group []
          ("\\frac".toList ++ group [] "1".toList ++ group [] "\\pi".toList)
          ++ "+\\left(2\\right)".toList) ++ "-\\pi".toList)
        "sin(sqrt((1)/(pi))+(2))-pi".toList
      ∧ toCanonical
        ("\\sin".toList ++ group [' '] ("\\sqrt".toList ++ group []
          ("\\frac".toList ++ group [] "1".toList ++ group [] "\\pi".toList)
          ++ "+\\left(2\\right)".toList) ++ "-\\pi".toList)
        = "sin(sqrt((1)/(pi))+(2))-pi".toList := by
  have hnone : Text.isBlank [] = true := rfl
  have hblank : Text.isBlank [' '] = true := rfl
  have hpi {level : Nat} : Translates 0 level ('\\' :: "pi".toList ++ []) ("pi".toList ++ []) :=
    .pi (by decide) .nil .nil
  have hfraction : Translates 0 1 _ _ :=
    .fraction rfl (by decide) hnone hnone (by decide) (by decide)
      (.char (c := '1') (by decide) .nil) hpi .nil
  have hparens : Translates 0 2 _ _ :=
    .opening (by decide) (.char (c := '2') (by decide) (.closing (by decide) .nil))
  have hroot : Translates 0 2 _ _ :=
    .root (by decide) (by decide) hnone (by decide) hfraction (.char (c := '+') (by decide) hparens)
  have hcall : Translates 0 3 _ _ :=
    .call .sin (by decide) (by decide) hblank (by decide) hroot (.char (c := '-') (by decide) hpi)
  exact ⟨hcall, toCanonical_of_translates hcall⟩

end TexCalc.Latex
