import Mathlib.Data.List.TakeWhile
import TexCalc.Latex.Fragment
import TexCalc.Proofs.Reading

/-!
# What the rules take up

For each rule, the texts behind a backslash that it takes up and what it writes for them. Where the
rules of a fraction, a root and a call read a group they take up blanks, the braces and a nonempty
text without braces between these (`Braced`).

What a rewriting leaves of a text is decided piece by piece: a relation that joins pieces and holds
between what a rule takes up and what it writes holds between a text and its rewriting
(`Rule.Keeps.rewrite`).
-/

namespace TexCalc.Latex

theorem word?_append : ∀ w rest : Text, word? w (w ++ rest) = some rest
  | [], _ => rfl
  | c :: w, rest => by
    change (if c == c then word? w (w ++ rest) else none) = some rest
    rw [if_pos (beq_self_eq_true c), word?_append w rest]

theorem word?_eq_some_iff {w t rest : Text} : word? w t = some rest ↔ t = w ++ rest :=
  ⟨word?_eq_some, fun h => h ▸ word?_append w rest⟩

theorem skipBlanks_append {gap rest : Text} (blank : gap.isBlank = true)
    (hrest : rest.head?.any isBlank = false) : skipBlanks (gap ++ rest) = rest :=
  dropWhile_run (List.all_eq_true.1 blank) hrest

theorem exists_gap (t : Text) : ∃ gap : Text, gap.isBlank = true ∧ t = gap ++ skipBlanks t :=
  ⟨t.takeWhile isBlank, List.all_eq_true.2 fun _ => List.mem_takeWhile_imp,
    List.takeWhile_append_dropWhile.symm⟩

/-- What a group may contain for a rule to take it up. -/
structure IsInner (inner : Text) : Prop where
  nonempty : inner ≠ []
  braceless : ∀ c ∈ inner, isBrace c = false

theorem group?_eq_some_iff {t inner rest : Text} :
    group? t = some (inner, rest) ↔ IsInner inner ∧ t = '{' :: (inner ++ '}' :: rest) := by
  constructor
  · intro h
    unfold group? at h
    split at h
    · rename_i t
      dsimp only at h
      split at h
      · rename_i hrest
        split at h
        · cases h
        · rename_i hne
          cases h
          have hall : ∀ c ∈ t.takeWhile (!isBrace ·), isBrace c = false := fun c hc => by
            simpa using List.mem_takeWhile_imp hc
          exact ⟨⟨hne, hall⟩, by rw [← hrest, List.takeWhile_append_dropWhile]⟩
      · cases h
    · cases h
  · rintro ⟨⟨hne, hall⟩, rfl⟩
    have hrun : ∀ c ∈ inner, (!isBrace c) = true := fun c hc => by simp [hall c hc]
    have htake : (inner ++ '}' :: rest).takeWhile (!isBrace ·) = inner := takeWhile_run hrun rfl
    have hdrop : (inner ++ '}' :: rest).dropWhile (!isBrace ·) = '}' :: rest :=
      dropWhile_run hrun rfl
    simp only [group?, htake, hdrop, if_neg hne]

/-- `Braced inner w`: the text `w` is a group of `inner`, with any blanks in front of it. -/
inductive Braced : Text → Text → Prop
  | intro {gap inner : Text} (blank : gap.isBlank = true) (hinner : IsInner inner) :
      Braced inner (group gap inner)

theorem group?_skipBlanks_iff {t inner rest : Text} :
    group? (skipBlanks t) = some (inner, rest) ↔ ∃ w, Braced inner w ∧ t = w ++ rest := by
  rw [group?_eq_some_iff]
  constructor
  · rintro ⟨hinner, h⟩
    obtain ⟨gap, blank, ht⟩ := exists_gap t
    refine ⟨_, .intro blank hinner, ?_⟩
    rw [ht, h]
    simp [group]
  · rintro ⟨_, ⟨blank, hinner⟩, rfl⟩
    refine ⟨hinner, ?_⟩
    rw [group, List.append_assoc, skipBlanks_append blank rfl]
    simp

theorem bare?_eq_some {t inner rest : Text} (h : bare? t = some (inner, rest)) :
    (∀ c ∈ inner, isBareChar c = true) ∧ t = inner ++ rest := by
  unfold bare? at h
  split at h
  · cases h
  · cases h
    exact ⟨fun _ => List.mem_takeWhile_imp, List.takeWhile_append_dropWhile.symm⟩

theorem fraction_apply_iff {t new left : Text} : fraction.apply t = some (new, left)
    ↔ ∃ above below w v, Braced above w ∧ Braced below v
      ∧ t = "frac".toList ++ w ++ v ++ left
      ∧ new = '(' :: above ++ ")/(".toList ++ below ++ [')'] := by
  simp only [fraction, Option.bind_eq_bind, Option.bind_eq_some_iff, Option.pure_def,
    Option.some.injEq, Prod.mk.injEq, Prod.exists, word?_eq_some_iff, group?_skipBlanks_iff]
  constructor
  · rintro ⟨_, rfl, above, _, ⟨w, hw, rfl⟩, below, _, ⟨v, hv, rfl⟩, rfl, rfl⟩
    exact ⟨above, below, w, v, hw, hv, by simp, rfl⟩
  · rintro ⟨above, below, w, v, hw, hv, rfl, rfl⟩
    exact ⟨_, by rw [List.append_assoc, List.append_assoc], above, _, ⟨w, hw, rfl⟩, below, left,
      ⟨v, hv, rfl⟩, rfl, rfl⟩

theorem root_apply_iff {t new left : Text} : root.apply t = some (new, left)
    ↔ ∃ argument w, Braced argument w ∧ t = "sqrt".toList ++ w ++ left
      ∧ new = "sqrt(".toList ++ argument ++ [')'] := by
  simp only [root, Option.bind_eq_bind, Option.bind_eq_some_iff, Option.pure_def,
    Option.some.injEq, Prod.mk.injEq, Prod.exists, word?_eq_some_iff, group?_skipBlanks_iff]
  constructor
  · rintro ⟨_, rfl, argument, _, ⟨w, hw, rfl⟩, rfl, rfl⟩
    exact ⟨argument, w, hw, by simp, rfl⟩
  · rintro ⟨argument, w, hw, rfl, rfl⟩
    exact ⟨_, by rw [List.append_assoc], argument, left, ⟨w, hw, rfl⟩, rfl, rfl⟩

/-- An argument with braces or without is taken up whole, and nothing but blanks in front of it. -/
theorem argument?_skipBlanks {t inner rest : Text}
    (h : argument? (skipBlanks t) = some (inner, rest)) :
    (∃ w, Braced inner w ∧ t = w ++ rest)
      ∨ ∃ gap : Text, gap.isBlank = true ∧ (∀ c ∈ inner, isBareChar c = true)
        ∧ t = gap ++ inner ++ rest := by
  rcases Option.or_eq_some_iff.1 h with h | ⟨-, h⟩
  · exact .inl (group?_skipBlanks_iff.1 h)
  · obtain ⟨gap, blank, ht⟩ := exists_gap t
    obtain ⟨hinner, hrest⟩ := bare?_eq_some h
    exact .inr ⟨gap, blank, hinner, by rw [List.append_assoc, ← hrest, ← ht]⟩

theorem call_apply {t new left : Text} (h : call.apply t = some (new, left)) :
    ∃ (f : Func) (argument w : Text), new = f.name ++ '(' :: argument ++ [')']
      ∧ t = f.name ++ w ++ left
      ∧ (Braced argument w ∨ ∃ gap : Text, gap.isBlank = true
        ∧ (∀ c ∈ argument, isBareChar c = true) ∧ w = gap ++ argument) := by
  obtain ⟨f, -, hf⟩ := List.exists_of_findSome?_eq_some h
  simp only [callOf?, Option.bind_eq_bind, Option.bind_eq_some_iff, Option.pure_def,
    Option.some.injEq, Prod.mk.injEq, Prod.exists, word?_eq_some_iff] at hf
  obtain ⟨t, rfl, argument, left, harg, rfl, rfl⟩ := hf
  rcases argument?_skipBlanks harg with ⟨w, hw, rfl⟩ | ⟨gap, blank, hbare, rfl⟩
  · exact ⟨f, argument, w, rfl, by simp, .inl hw⟩
  · exact ⟨f, argument, gap ++ argument, rfl, by simp, .inr ⟨gap, blank, hbare, rfl⟩⟩

theorem delimiter_apply {name t new left : Text} {paren : Char}
    (h : (delimiter name paren).apply t = some (new, left)) :
    ∃ gap : Text, gap.isBlank = true ∧ new = [paren] ∧ t = name ++ gap ++ paren :: left := by
  simp only [delimiter, Option.bind_eq_bind, Option.bind_eq_some_iff, Option.pure_def,
    Option.some.injEq, Prod.mk.injEq, word?_eq_some_iff] at h
  obtain ⟨t, rfl, _, hskip, rfl, rfl⟩ := h
  obtain ⟨gap, blank, ht⟩ := exists_gap t
  exact ⟨gap, blank, rfl, by rw [ht, hskip]; simp⟩

theorem pi_apply_iff {t new left : Text} : pi.apply t = some (new, left)
    ↔ new = "pi".toList ∧ t = "pi".toList ++ left ∧ left.head?.any isWordChar = false := by
  simp only [pi, Option.bind_eq_bind, Option.bind_eq_some_iff, word?_eq_some_iff]
  constructor
  · rintro ⟨rest, rfl, h⟩
    split at h
    · simp at h
    · rename_i hword
      simp only [Option.pure_def, Option.some.injEq, Prod.mk.injEq] at h
      obtain ⟨rfl, rfl⟩ := h
      exact ⟨rfl, rfl, by simpa using hword⟩
  · rintro ⟨rfl, rfl, hword⟩
    exact ⟨left, rfl, by simp [hword]⟩

theorem command_apply {t new left : Text} (h : command.apply t = some (new, left)) :
    new = [] ∧ ∃ name : Text, (∀ c ∈ name, c.isAlpha = true) ∧ t = name ++ left := by
  simp only [command] at h
  split at h
  · cases h
    exact ⟨rfl, t.takeWhile Char.isAlpha, fun _ => List.mem_takeWhile_imp,
      List.takeWhile_append_dropWhile.symm⟩
  · cases h

/-- The relation holds between what the rule takes up, the backslash included, and what it writes
for it. -/
def Rule.Keeps (rule : Rule) (related : Text → Text → Prop) : Prop :=
  ∀ ⦃t new left : Text⦄, rule.apply t = some (new, left) →
    ∃ taken, t = taken ++ left ∧ related ('\\' :: taken) new

theorem Rule.Keeps.rewrite {rule : Rule} {related : Text → Text → Prop} (h : rule.Keeps related)
    (refl : ∀ t, related t t)
    (append : ∀ {t t' u u'}, related t t' → related u u' → related (t ++ u) (t' ++ u'))
    (t : Text) : related t (rule.rewrite t) := by
  fun_induction Rule.rewrite rule t with
  | case1 => exact refl []
  | case2 rest new left happly ih =>
    obtain ⟨taken, rfl, hnew⟩ := h happly
    exact append hnew ih
  | case3 rest happly ih => exact append (refl ['\\']) ih
  | case4 c rest hc ih => exact append (refl [c]) ih

theorem related_foldl_rewrite {related : Text → Text → Prop} (refl : ∀ t, related t t)
    (append : ∀ {t t' u u'}, related t t' → related u u' → related (t ++ u) (t' ++ u'))
    (trans : ∀ {t u v}, related t u → related u v → related t v) : ∀ {rs : List Rule},
      (∀ rule ∈ rs, rule.Keeps related) →
      ∀ t, related t (rs.foldl (fun t rule => rule.rewrite t) t)
  | [], _, t => refl t
  | rule :: _, h, t => by
    have hfirst : related t (rule.rewrite t) := (h rule List.mem_cons_self).rewrite refl append t
    exact trans hfirst (related_foldl_rewrite refl append trans
      (fun r hr => h r (List.mem_cons_of_mem rule hr)) _)

end TexCalc.Latex
