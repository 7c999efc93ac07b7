import Ambient.Proofs.Segment

/-!
The marks of a text: its brackets and separators outside literals and comments, at their places.
Every lexeme of every text is sharp (`lex_sharp`), so balances and the search for a separator depend
on the marks alone.
-/

namespace Ambient

open Lexer

/-! ### Lexemes are sharp -/

namespace Lexeme

theorem sharp_of_inert {kind : TokenKind} (h : kind.isInert = true) (t : Text) :
    Sharp ⟨kind, t⟩ := .inl h

theorem sharp_of_dull {t : Text} (h : ∀ c ∈ t, isDull c = true) (kind : TokenKind) :
    Sharp ⟨kind, t⟩ := .inr (.inl fun c member => isMark_of_isDull (h c member))

theorem sharp_of_bracket (c : Char) : Sharp ⟨.bracket, [c]⟩ := .inr (.inr ⟨c, rfl, rfl, fun _ => rfl⟩)

/-- A character that is no bracket is sharp in every class. -/
theorem sharp_of_single {c : Char} (h : c ∉ openers ++ closers) (kind : TokenKind) :
    Sharp ⟨kind, [c]⟩ := by
  by_cases inert : kind.isInert = true
  · exact .inl inert
  · exact .inr (.inr ⟨c, rfl, by simpa using inert, fun member => absurd member h⟩)

/-- Operators of several characters have no marks, the others are single signs. -/
theorem sharp_of_operator {mark : Text} (h : mark ∈ operandOperators ++ longOperators) :
    Sharp ⟨.operator, mark⟩ := by
  have known : ∀ mark ∈ operandOperators ++ longOperators,
      (∀ c ∈ mark, isMark c = false) ∨ mark.length = 1 ∧ ∀ c ∈ mark, c ∉ openers ++ closers := by
    decide
  rcases known mark h with unmarked | ⟨single, sign⟩
  · exact .inr (.inl unmarked)
  · obtain ⟨c, rfl⟩ := List.length_eq_one_iff.1 single
    exact sharp_of_single (sign c (by simp)) .operator

end Lexeme

/-- All lexemes of a step are sharp. -/
def Lexer.Step.Sharp (s : Step) : Prop := ∀ l ∈ s.lexemes, l.Sharp

section
variable {before : Option Char} {t : Text} {s : Step}

theorem Lexer.Step.single_sharp {kind : TokenKind} {read : Text} (h : Lexeme.Sharp ⟨kind, read⟩)
    (mode : Mode) (rest : Text) : (Step.single kind mode (read, rest)).Sharp := by
  intro l member
  obtain rfl := List.mem_singleton.1 member
  exact h

theorem sharp_run {kind : TokenKind} {next : Mode} {first inside : Char → Bool}
    (sharp : ∀ c w, first c = true → (∀ d ∈ w, inside d = true) → Lexeme.Sharp ⟨kind, c :: w⟩)
    (h : run kind next first inside before t = some s) : s.Sharp := by
  obtain ⟨c, r, -, start, rfl⟩ := run_eq_some h
  exact Step.single_sharp (sharp c _ start fun d member =>
    List.all_eq_true.1 List.all_takeWhile d member) _ _

theorem sharp_run_inert {kind : TokenKind} (inert : kind.isInert = true) {next : Mode}
    {first inside : Char → Bool} (h : run kind next first inside before t = some s) : s.Sharp :=
  sharp_run (fun _ _ _ _ => .inl inert) h

theorem sharp_run_dull {kind : TokenKind} {next : Mode} {first inside : Char → Bool}
    (firstDull : ∀ d, first d = true → isDull d = true)
    (insideDull : ∀ d, inside d = true → isDull d = true)
    (h : run kind next first inside before t = some s) : s.Sharp := by
  refine sharp_run (fun c w start within => Lexeme.sharp_of_dull ?_ kind) h
  intro d member
  rcases List.mem_cons.1 member with rfl | member
  · exact firstDull d start
  · exact insideDull d (within d member)

theorem sharp_one {kind : TokenKind} {next : Mode} {first : Char → Bool}
    (sharp : ∀ c, first c = true → Lexeme.Sharp ⟨kind, [c]⟩)
    (h : one kind next first before t = some s) : s.Sharp := by
  refine sharp_run (fun c w start within => ?_) h
  cases w with
  | nil => exact sharp c start
  | cons d w => exact absurd (within d List.mem_cons_self) (by simp)

theorem sharp_sign {kind : TokenKind} {next : Mode} {mark : Text}
    (sharp : Lexeme.Sharp ⟨kind, mark⟩) (h : sign kind next mark before t = some s) : s.Sharp := by
  obtain ⟨r, -, rfl⟩ := Option.map_eq_some_iff.1 h
  exact Step.single_sharp sharp next r

theorem sharp_beforeRegex? {kind : TokenKind} {head r : Text} (sharp : Lexeme.Sharp ⟨kind, head⟩)
    (h : beforeRegex? kind head r = some s) : s.Sharp := by
  obtain ⟨⟨literal, rest⟩, -, rfl⟩ := Option.map_eq_some_iff.1 h
  intro l member
  simp only [List.cons_append, List.mem_cons, List.mem_append, List.not_mem_nil, or_false] at member
  rcases member with rfl | gap | rfl
  · exact sharp
  · split at gap
    · cases gap
    · obtain rfl := List.mem_singleton.1 gap
      exact Lexeme.sharp_of_inert rfl _
  · exact Lexeme.sharp_of_inert rfl _

theorem sharp_quoted {q : Char} {kind : TokenKind} (inert : kind.isInert = true)
    (h : quoted q kind before t = some s) : s.Sharp := by
  obtain ⟨_, -, inner⟩ := Option.bind_eq_some_iff.1 h
  obtain ⟨_, -, rfl⟩ := Option.map_eq_some_iff.1 inner
  exact Step.single_sharp (.inl inert) _ _

end

/-- The rules of code but the last, which takes any character. -/
def signRules : List Rule := (rules .code).dropLast

theorem sharp_of_rule {rule : Rule} (member : rule ∈ signRules) {before : Option Char} {t : Text}
    {s : Step} (h : rule before t = some s) : s.Sharp := by
  simp only [signRules, rules, List.dropLast_cons_of_ne_nil, ne_eq, reduceCtorEq, not_false_eq_true,
    List.dropLast_singleton, List.mem_cons, List.not_mem_nil, or_false] at member
  rcases member with rfl | rfl | rfl | rfl | rfl | rfl | rfl | rfl | rfl | rfl | rfl | rfl |
    rfl | rfl | rfl
  · obtain ⟨_, -, rfl⟩ := Option.map_eq_some_iff.1 h
    exact Step.single_sharp (.inl rfl) _ _
  · obtain ⟨_, -, rfl⟩ := Option.map_eq_some_iff.1 h
    exact Step.single_sharp (.inl rfl) _ _
  · exact sharp_quoted rfl h
  · exact sharp_quoted rfl h
  · exact sharp_sign (.inl rfl) h
  · obtain ⟨d, -, found⟩ := List.exists_of_findSome?_eq_some h
    obtain ⟨_, -, regex⟩ := Option.bind_eq_some_iff.1 found
    exact sharp_beforeRegex? (Lexeme.sharp_of_bracket d) regex
  · obtain ⟨mark, known, found⟩ := List.exists_of_findSome?_eq_some h
    obtain ⟨_, -, regex⟩ := Option.bind_eq_some_iff.1 found
    exact sharp_beforeRegex? (Lexeme.sharp_of_operator (List.mem_append_left _ known)) regex
  · unfold wordRegex at h
    split at h
    · obtain ⟨word, known, found⟩ := List.exists_of_findSome?_eq_some h
      obtain ⟨_, -, regex⟩ := Option.bind_eq_some_iff.1 found
      have dull : ∀ word ∈ operandWords, ∀ d ∈ word, isDull d = true := by decide
      exact sharp_beforeRegex? (Lexeme.sharp_of_dull (dull word known) .name) regex
    · cases h
  · exact sharp_one (fun c _ => Lexeme.sharp_of_bracket c) h
  · obtain ⟨mark, known, found⟩ := List.exists_of_findSome?_eq_some h
    exact sharp_sign (Lexeme.sharp_of_operator (List.mem_append_right _ known)) found
  · have plain : ∀ c ∈ shortOperators, c ∉ openers ++ closers := by decide
    exact sharp_one (fun c sign => Lexeme.sharp_of_single (plain c (by simpa using sign)) _) h
  · unfold keyword at h
    split at h <;> cases h
    refine Step.single_sharp (Lexeme.sharp_of_dull (fun d inside => ?_) _) _ _
    exact isDull_of_isNameChar (List.all_eq_true.1 List.all_takeWhile d inside)
  · exact sharp_run_dull (fun _ => isDull_of_isNameStart) (fun _ => isDull_of_isNameChar) h
  · exact sharp_run_dull (fun _ => isDull_of_isDecimal) (fun _ => isDull_of_inNumber) h
  · exact sharp_run_inert rfl h

/-- In a template literal only a backslash at the end of the text is read without a rule. -/
theorem sharp_of_literal_rule {mode : Mode} (literal : mode ≠ .code) {rule : Rule}
    (member : rule ∈ rules mode) {before : Option Char} {t : Text} {s : Step}
    (h : rule before t = some s) : s.Sharp := by
  cases mode with
  | code => exact absurd rfl literal
  | template =>
    simp only [rules, List.mem_cons, List.not_mem_nil, or_false] at member
    rcases member with rfl | rfl | rfl | rfl | rfl
    · exact sharp_sign (.inl rfl) h
    · unfold escape at h
      split at h <;> cases h
      exact Step.single_sharp (.inl rfl) _ _
    · exact sharp_sign (.inl rfl) h
    · exact sharp_run_inert rfl h
    · exact sharp_sign (.inl rfl) h
  | interpolation =>
    simp only [rules, List.mem_cons, List.not_mem_nil, or_false] at member
    rcases member with rfl | rfl
    · exact sharp_sign (.inl rfl) h
    · exact sharp_run_inert rfl h

theorem step_sharp (mode : Mode) (before : Option Char) (c : Char) (r : Text) :
    (step mode before c r).Sharp := by
  unfold step
  cases found : (rules mode).findSome? fun rule => rule before (c :: r) with
  | none =>
    refine Step.single_sharp (Lexeme.sharp_of_single (fun sign => ?_) _) _ _
    have missing := List.findSome?_eq_none_iff.1 found
    cases mode with
    | code =>
      have bracket := missing bracket (by simp [rules])
      rw [Lexer.bracket, one_cons, if_pos (by simpa using sign)] at bracket
      cases bracket
    | template =>
      have text := missing templateText (by simp [rules])
      have plain : ∀ d ∈ openers ++ closers, isTemplateText d = true := by decide
      rw [templateText_eq, run, if_pos (plain c sign)] at text
      cases text
    | interpolation =>
      have close := missing (Lexer.sign .interpolation .template ['}']) (by simp [rules])
      have text := missing substitution (by simp [rules])
      by_cases brace : c = '}'
      · simp [brace, Lexer.sign, after?_cons] at close
      · simp [substitution, run, brace] at text
  | some s =>
    rw [Option.getD_some]
    by_cases code : mode = .code
    · subst code
      have parted : rules .code = signRules ++ [other] := rfl
      rw [parted, List.findSome?_append] at found
      cases early : signRules.findSome? fun rule => rule before (c :: r) with
      | some s' =>
        rw [early] at found
        obtain rfl := Option.some.inj found
        obtain ⟨rule, member, read⟩ := List.exists_of_findSome?_eq_some early
        exact sharp_of_rule member read
      | none =>
        have plain : c ∉ openers ++ closers := by
          intro sign
          have missing := List.findSome?_eq_none_iff.1 early bracket (by simp [signRules, rules])
          rw [bracket, one_cons, if_pos (by simpa using sign)] at missing
          cases missing
        rw [early, Option.none_or, List.findSome?_singleton, other, one_cons] at found
        split at found <;> cases found
        exact Step.single_sharp (Lexeme.sharp_of_single plain _) _ _
    · obtain ⟨rule, member, read⟩ := List.exists_of_findSome?_eq_some found
      exact sharp_of_literal_rule code member read

/-- **Every lexeme is sharp**, in every text. -/
theorem lex_sharp (mode : Mode) (before : Option Char) (t : Text) :
    ∀ l ∈ lex mode before t, l.Sharp := by
  fun_induction lex mode before t with
  | case1 => exact List.forall_mem_nil _
  | case2 mode before c r s ih =>
    intro l member
    rcases List.mem_append.1 member with here | later
    · exact step_sharp mode before c r l here
    · exact ih l later

/-! ### Marks -/

/-- The outline of a text: its brackets and separators outside literals and comments. -/
def marks (t : Text) : Outline := Lexeme.outlines (lex .code none t)

theorem bracketBalance_eq (t : Text) : bracketBalance t = (marks t).depth :=
  (Lexeme.balance_place (lex_sharp .code none t) 0).1

theorem braceBalance_eq (t : Text) : braceBalance t = (marks t).braceDepth :=
  (Lexeme.balance_place (lex_sharp .code none t) 0).2

theorem find?_eq {mark : Char} (h : isMark mark = true) (t : Text) :
    Nesting.find? false [mark] 0 t = (marks t).firstTop mark 0 := by
  have found := Lexeme.findFrom_place (lex_sharp .code none t) h 0 0
  simpa [Nesting.find?, tokens, marks] using found

theorem Lexeme.length_outlines (ls : List Lexeme) :
    (Lexeme.outlines ls).length = (Lexeme.spell ls).length := by
  induction ls with
  | nil => rfl
  | cons l ls ih => simp_all [Lexeme.outlines, Lexeme.spell, Lexeme.outline]

theorem length_marks (t : Text) : (marks t).length = t.length := by
  rw [marks, Lexeme.length_outlines, spell_lex]

/-- Text without brackets shows none. -/
theorem Lexeme.absent_of_free {ls : List Lexeme}
    (h : ∀ c ∈ Lexeme.spell ls, c ∉ openers ++ closers) :
    ∀ x ∈ Lexeme.outlines ls, ∀ c ∈ x, c ∉ openers ++ closers := by
  intro x member c same
  obtain ⟨l, inside, shown⟩ := List.mem_flatMap.1 member
  obtain ⟨d, char, rfl⟩ := List.mem_map.1 shown
  have other := h d (List.mem_flatMap.2 ⟨l, inside, char⟩)
  simp only [mark?] at same
  split at same
  · cases same
  · split at same
    · exact Option.some.inj same ▸ other
    · cases same

/-- Without brackets both balances are zero. -/
theorem Outline.balances_of_absent {o : Outline} (h : ∀ x ∈ o, ∀ c ∈ x, c ∉ openers ++ closers) :
    o.depth = 0 ∧ o.braceDepth = 0 := by
  have opening : o.countP (·.any (openers.contains ·)) = 0 := by
    refine List.countP_eq_zero.2 fun x member found => ?_
    cases x with
    | none => cases found
    | some c => exact h _ member c rfl (List.mem_append_left _ (by simpa using found))
  have closing : o.countP (·.any (closers.contains ·)) = 0 := by
    refine List.countP_eq_zero.2 fun x member found => ?_
    cases x with
    | none => cases found
    | some c => exact h _ member c rfl (List.mem_append_right _ (by simpa using found))
  have absent (c : Char) (sign : c ∈ openers ++ closers) : o.count (some c) = 0 :=
    List.count_eq_zero.2 fun member => h _ member c rfl sign
  rw [Outline.depth, opening, closing, Outline.braceDepth, absent '{' (by decide),
    absent '}' (by decide)]
  exact ⟨rfl, rfl⟩

theorem Lexeme.depth_of_free {ls : List Lexeme}
    (h : ∀ c ∈ Lexeme.spell ls, c ∉ openers ++ closers) : (Lexeme.outlines ls).depth = 0 :=
  (Outline.balances_of_absent (absent_of_free h)).1

end Ambient
