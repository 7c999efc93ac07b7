import Ambient.Proofs.Tails

/-!
What may stand around a text without changing its balance: blanks and words before it, and blanks,
commas and semicolons behind it, whatever the text leaves open. A step of the lexer reads the same
with such a tail behind the text, or its lexeme shows no mark and runs on into the tail
(`step_trails`).
-/

namespace Ambient

open Lexer

/-! ### Behind a text -/

/-- With `w` behind the text a step reads the same, or its only lexeme shows no mark and runs on. -/
inductive Lexer.Step.Trails (w : Text) (s : Step) : Step → Prop
  | same : Trails w s ⟨s.lexemes, s.rest ++ w, s.mode⟩
  | runsOn {l l' : Lexeme} {more rest : Text} (next : Mode) : s.lexemes = [l] → s.rest = [] →
      w = more ++ rest → l'.text = l.text ++ more → (∀ x ∈ l.outline, x = none) →
      (∀ x ∈ l'.outline, x = none) → Trails w s ⟨[l'], rest, next⟩

section
variable {w : Text} (neutral : ∀ c ∈ w, isNeutral c = true)

include neutral

theorem step_trails (mode : Mode) (before : Option Char) (c : Char) (r : Text) :
    (step mode before c r).Trails w (step mode before c (r ++ w)) := by
  have twins : Twins [] w := by
    refine ⟨apart_of_neutral (List.forall_mem_nil _), apart_of_neutral neutral, .inr ⟨rfl, ?_⟩⟩
    exact fun found => ne_of_isNeutral (neutral _ (List.mem_of_head? found)) (by decide) rfl
  have alike := step_alike twins mode before c r
  rw [List.append_nil] at alike
  generalize step mode before c r = s at alike
  generalize step mode before c (r ++ w) = s' at alike
  cases alike with
  | same ls rest mode =>
    rw [List.append_nil]
    exact .same
  | runsOn t next next' text split _ text' split' unmarked unmarked' =>
    obtain ⟨rfl, rfl⟩ := List.append_eq_nil_iff.1 split.symm
    rw [List.append_nil] at text
    exact .runsOn next' rfl rfl split' (text ▸ text') unmarked unmarked'

theorem not_bracket_of_neutral : ∀ c ∈ w, c ∉ openers ++ closers := by
  have solid : ∀ d ∈ openers ++ closers, isNeutral d = false := by decide
  intro c member sign
  exact ne_of_isNeutral (neutral c member) (solid c sign) rfl

/-- What stands behind the text adds no bracket and changes no mark of the text. -/
theorem outlines_append_neutral (mode : Mode) (before : Option Char) (u : Text) :
    ∃ o : Outline, (o.depth = 0 ∧ o.braceDepth = 0) ∧ Lexeme.outlines (lex mode before (u ++ w)) =
      Lexeme.outlines (lex mode before u) ++ o := by
  generalize size : u.length = n
  induction n using Nat.strongRecOn generalizing u mode before with
  | ind n ih =>
    cases u with
    | nil =>
      refine ⟨Lexeme.outlines (lex mode before w),
        Outline.balances_of_absent (Lexeme.absent_of_free ?_), by simp [lex, Lexeme.outlines]⟩
      rw [spell_lex]
      exact not_bracket_of_neutral neutral
    | cons c r =>
      have shorter := (step_tiles mode before c r).rest_lt
      rw [List.cons_append, lex_cons, lex_cons]
      have trails := step_trails neutral mode before c r
      generalize step mode before c r = s at trails shorter
      generalize step mode before c (r ++ w) = s' at trails
      cases trails with
      | same =>
        obtain ⟨o, zero, later⟩ := ih _ (size ▸ shorter) s.mode (Lexeme.spell s.lexemes).getLast?
          s.rest rfl
        refine ⟨o, zero, ?_⟩
        rw [Lexeme.outlines_append, later, Lexeme.outlines_append, List.append_assoc]
      | @runsOn l l' more rest next lexemes left split spelled unmarked unmarked' =>
        let behind := lex next (Lexeme.spell [l']).getLast? rest
        have shown : l'.outline = l.outline ++ List.replicate more.length none := by
          rw [List.eq_replicate_iff.2 ⟨rfl, unmarked⟩, List.eq_replicate_iff.2 ⟨rfl, unmarked'⟩,
            List.replicate_append_replicate]
          simp [Lexeme.outline, spelled]
        refine ⟨List.replicate more.length none ++ Lexeme.outlines behind, ?_, ?_⟩
        · have free : ∀ x ∈ Lexeme.outlines behind, ∀ d ∈ x, d ∉ openers ++ closers := by
            refine Lexeme.absent_of_free fun d member => not_bracket_of_neutral neutral d ?_
            rw [spell_lex] at member
            exact split ▸ List.mem_append_right more member
          refine Outline.balances_of_absent fun x member d inside => ?_
          rcases List.mem_append.1 member with blank | shown
          · rw [List.eq_of_mem_replicate blank] at inside
            cases inside
          · exact free x shown d inside
        · rw [lexemes, left, Lexeme.outlines_append, Lexeme.outlines_append, ← List.append_assoc]
          simp [Lexeme.outlines, lex, shown, behind]

end

theorem marks_append {w : Text} (neutral : ∀ c ∈ w, isNeutral c = true) (t : Text) :
    ∃ o : Outline, (o.depth = 0 ∧ o.braceDepth = 0) ∧ marks (t ++ w) = marks t ++ o :=
  outlines_append_neutral neutral .code none t

/-- **Blanks, commas and semicolons behind a text do not change its balance**, whatever the text
leaves open. -/
theorem bracketBalance_append_neutral {w : Text} (neutral : ∀ c ∈ w, isNeutral c = true) (t : Text) :
    bracketBalance (t ++ w) = bracketBalance t := by
  obtain ⟨o, ⟨zero, -⟩, shown⟩ := marks_append neutral t
  rw [bracketBalance_eq, bracketBalance_eq, shown, Outline.depth_append, zero, Int.add_zero]

theorem braceBalance_append_neutral {w : Text} (neutral : ∀ c ∈ w, isNeutral c = true) (t : Text) :
    braceBalance (t ++ w) = braceBalance t := by
  obtain ⟨o, ⟨-, zero⟩, shown⟩ := marks_append neutral t
  rw [braceBalance_eq, braceBalance_eq, shown, Outline.braceDepth_append, zero, Int.add_zero]

/-! ### Before a text -/

/-- The character before a text matters only to the words at its head. -/
theorem step_before {b b' : Option Char} {c : Char} {r : Text}
    (h : nameFree b = nameFree b' ∨ isNameChar c = false) : step .code b c r = step .code b' c r := by
  have word : wordRegex b (c :: r) = wordRegex b' (c :: r) := by
    rcases h with same | sign
    · rw [wordRegex, wordRegex, same]
    · have heads : ∀ word ∈ operandWords, word ≠ [] ∧ ∀ d ∈ word.head?, isNameChar d = true := by
        decide
      have none : (operandWords.findSome? fun word =>
          (after? word (c :: r)).bind (beforeRegex? .name word)) = none := by
        refine List.findSome?_eq_none_iff.2 fun word member => ?_
        obtain ⟨nonempty, start⟩ := heads word member
        obtain ⟨d, ds, rfl⟩ := List.exists_cons_of_ne_nil nonempty
        have other : d ≠ c := by
          rintro rfl
          simp [start d rfl] at sign
        simp [after?_cons, other]
      simp [wordRegex, none]
  have key : keyword b (c :: r) = keyword b' (c :: r) := by
    rcases h with same | sign
    · rw [keyword, keyword, same]
    · have none : keywords.contains ((c :: r).takeWhile isNameChar) = false := by
        rw [List.takeWhile_cons_of_neg (by simp [sign])]
        decide
      simp only [keyword, none, Bool.and_false, Bool.false_eq_true, ↓reduceIte]
  simp only [step, rules, List.findSome?_cons, word, key]
  rfl

theorem lex_before {b : Option Char} (b' : Option Char) {t : Text}
    (h : nameFree b = nameFree b' ∨ ∀ c ∈ t.head?, isNameChar c = false) :
    lex .code b t = lex .code b' t := by
  cases t with
  | nil => simp [lex]
  | cons c r =>
    rw [lex_cons, lex_cons, step_before (h.imp_right fun sign => sign c rfl)]

theorem isNameChar_of_isBlank {c : Char} (h : isBlank c = true) : isNameChar c = false :=
  isNameChar_of_isNeutral (by simp [isNeutral, h])

/-- Blanks are one lexeme, and what stands behind them is read as if nothing stood before it. -/
theorem lex_blanks {c : Char} (blank : isBlank c = true) (before : Option Char) (r : Text) :
    lex .code before (c :: r) =
      ⟨.blank, c :: r.takeWhile isBlank⟩ :: lex .code none (r.dropWhile isBlank) := by
  have inside : ∀ d ∈ c :: r.takeWhile isBlank, isBlank d = true := by
    intro d member
    rcases List.mem_cons.1 member with rfl | member
    · exact blank
    · exact List.all_eq_true.1 List.all_takeWhile d member
  have free : nameFree (c :: r.takeWhile isBlank).getLast? = nameFree none := by
    cases last : (c :: r.takeWhile isBlank).getLast? with
    | none => rfl
    | some d => simp [nameFree, isNameChar_of_isBlank (inside d (List.mem_of_getLast? last))]
  rw [lex_of_step (step_blank blank before r), lex_before none (.inl free)]

/-- Blanks before a text show no mark. -/
theorem marks_trimLeft (t : Text) :
    ∃ o : Outline, (∀ x ∈ o, x = none) ∧ marks t = o ++ marks (trimLeft t) := by
  cases t with
  | nil => exact ⟨[], nofun, rfl⟩
  | cons c r =>
    by_cases blank : isBlank c = true
    · have gap : ∀ x ∈ Lexeme.outline ⟨.blank, c :: r.takeWhile isBlank⟩, x = none :=
        Lexeme.unmarked_of_inert rfl _
      refine ⟨_, gap, ?_⟩
      rw [trimLeft, List.dropWhile_cons_of_pos blank, marks, marks, lex_blanks blank none r]
      exact List.flatMap_cons
    · refine ⟨[], nofun, ?_⟩
      rw [trimLeft, List.dropWhile_cons_of_neg blank]
      rfl

/-- Blanks before a text do not change its balance. -/
theorem bracketBalance_trimLeft (t : Text) : bracketBalance (trimLeft t) = bracketBalance t := by
  obtain ⟨o, unmarked, shown⟩ := marks_trimLeft t
  rw [bracketBalance_eq, bracketBalance_eq, shown, Outline.depth_append,
    Outline.depth_of_unmarked unmarked, Int.zero_add]

theorem braceBalance_trimLeft (t : Text) : braceBalance (trimLeft t) = braceBalance t := by
  obtain ⟨o, unmarked, shown⟩ := marks_trimLeft t
  rw [braceBalance_eq, braceBalance_eq, shown, Outline.braceDepth_append,
    Outline.braceDepth_of_unmarked unmarked, Int.zero_add]

theorem isNeutral_of_isBlank {c : Char} (h : isBlank c = true) : isNeutral c = true := by
  simp [isNeutral, h]

theorem bracketBalance_trimRight (t : Text) : bracketBalance (trimRight t) = bracketBalance t := by
  obtain ⟨w, blank, split⟩ := exists_trimRight_append t
  conv => rhs; rw [split]
  exact (bracketBalance_append_neutral (fun c member => isNeutral_of_isBlank (blank c member)) _).symm

theorem braceBalance_trimRight (t : Text) : braceBalance (trimRight t) = braceBalance t := by
  obtain ⟨w, blank, split⟩ := exists_trimRight_append t
  conv => rhs; rw [split]
  exact (braceBalance_append_neutral (fun c member => isNeutral_of_isBlank (blank c member)) _).symm

theorem bracketBalance_trim (t : Text) : bracketBalance (trim t) = bracketBalance t := by
  rw [trim, bracketBalance_trimRight, bracketBalance_trimLeft]

theorem braceBalance_trim (t : Text) : braceBalance (trim t) = braceBalance t := by
  rw [trim, braceBalance_trimRight, braceBalance_trimLeft]

/-- Only a word that lets an operand follow can open a regular expression. -/
theorem quiet_word {w : Word} {r : Text} (stop : ∀ c ∈ r.head?, isNameChar c = false)
    (plain : w.text ∉ operandWords ∨ (trimLeft r).head? ≠ some '/') : Quiet (w.text ++ r) := by
  have heads : ∀ head ∈ operandHeads, head ≠ [] ∧
      (head ∈ operandWords ∧ (∀ c ∈ head, isNameChar c = true) ∨
        ∀ c ∈ head.head?, isNameStart c = false) := by decide
  intro head member rest spelled
  obtain ⟨nonempty, word | sign⟩ := heads head member
  · rcases List.append_eq_append_iff.1 spelled with ⟨more, longer, rfl⟩ | ⟨more, shorter, rfl⟩
    · -- The word ends before `head` does: then a character of `head` is none of a name.
      cases more with
      | nil =>
        rw [List.append_nil] at longer
        rw [List.nil_append] at plain
        refine regex?_of_head? (plain.resolve_left fun other => other (longer ▸ word.1))
      | cons d more =>
        have inName := word.2 d (by simp [longer])
        simp [stop d rfl] at inName
    · cases more with
      | nil =>
        rw [List.append_nil] at shorter
        exact regex?_of_head? (plain.resolve_left fun other => other (shorter ▸ word.1))
      | cons d more =>
        have inName : isNameChar d = true := w.all_chars d (by simp [shorter])
        have solid := isBlank_of_isNameChar inName
        refine regex?_of_head? ?_
        rw [List.cons_append, trimLeft, List.dropWhile_cons_of_neg (by simp [solid])]
        rintro slash
        obtain rfl : d = '/' := by simpa using slash
        exact absurd inName (by decide)
  · obtain ⟨d, ds, rfl⟩ := List.exists_cons_of_ne_nil nonempty
    have same : w.first = d := (List.cons.inj spelled).1
    have start := w.start
    rw [same, sign d rfl] at start
    cases start

/-- A word in front of a text does not change its balance. -/
theorem bracketBalance_word {w : Word} {r : Text} (stop : ∀ c ∈ r.head?, isNameChar c = false)
    (plain : w.text ∉ operandWords ∨ (trimLeft r).head? ≠ some '/') :
    bracketBalance (w.text ++ r) = bracketBalance r := by
  have read : step .code none w.first (w.more ++ r) = .single w.kind .code (w.text, r) :=
    step_word rfl stop (quiet_word stop plain)
  have word : (Lexeme.outline ⟨w.kind, w.text⟩).depth = 0 := by
    refine Outline.depth_of_unmarked (Lexeme.outline_of_unmarked fun c member => ?_)
    exact isMark_of_isDull (isDull_of_isNameChar (w.all_chars c member))
  rw [bracketBalance_eq, bracketBalance_eq, marks, marks, Word.text, List.cons_append,
    lex_of_step read, lex_before none (.inr stop)]
  simp only [Lexeme.outlines, List.flatMap_cons, Outline.depth_append, word, Int.zero_add]

theorem bracketBalance_of_afterSpaced? {w : Word} (plain : w.text ∉ operandWords) {t r : Text}
    (h : afterSpaced? w.text t = some r) : bracketBalance t = bracketBalance r := by
  obtain ⟨u, found, skipped⟩ := Option.bind_eq_some_iff.1 h
  rw [after?_eq_some_iff.1 found]
  cases u with
  | nil => cases skipped
  | cons c u =>
    rw [afterBlanks?] at skipped
    split at skipped
    · next blank =>
      obtain rfl := Option.some.inj skipped
      rw [bracketBalance_word (by simpa using isNameChar_of_isBlank blank) (.inl plain),
        ← bracketBalance_trimLeft (c :: u), trimLeft, List.dropWhile_cons_of_pos blank, trimLeft]
    · cases skipped

theorem bracketBalance_skipSpaced {w : Word} (plain : w.text ∉ operandWords) (t : Text) :
    bracketBalance (skipSpaced w.text t) = bracketBalance t := by
  unfold skipSpaced
  cases found : afterSpaced? w.text t with
  | none => rfl
  | some r => exact (bracketBalance_of_afterSpaced? plain found).symm

/-- A word and a space in front of a text do not change its balance. -/
theorem bracketBalance_spaced {w : Word} (plain : w.text ∉ operandWords) (r : Text) :
    bracketBalance (w.text ++ ' ' :: r) = bracketBalance r := by
  have found : afterSpaced? w.text (w.text ++ ' ' :: r) = some (trimLeft r) := by
    rw [afterSpaced?, after?_append]
    rfl
  rw [bracketBalance_of_afterSpaced? plain found, bracketBalance_trimLeft]

/-! ### Behind a sign -/

/-- A sign that no longer operator starts with here is read alone. -/
theorem step_short {c : Char} (sign : c ∈ shortOperators) (plain : c ∉ literalSigns)
    {before : Option Char} {r : Text}
    (alone : ∀ mark ∈ longOperators, startsWith mark (c :: r) = false) (quiet : Quiet (c :: r)) :
    step .code before c r = .single .operator .code ([c], r) := by
  have apart : ∀ d ∈ shortOperators, d ∉ openers ++ closers := by decide
  have noBracket : bracket before (c :: r) = none := by
    rw [bracket, one_cons, if_neg (by simpa using apart c sign)]
  have noLong : longOperator before (c :: r) = none := by
    refine List.findSome?_eq_none_iff.2 fun mark member => ?_
    rw [Lexer.sign, after?_eq_none_iff.2 (alone mark member), Option.map_none]
  have short : shortOperator before (c :: r) = some (.single .operator .code ([c], r)) := by
    rw [shortOperator, one_cons, if_pos (by simpa using sign)]
  rw [step_of_quiet plain quiet, plainRules, List.findSome?_cons, noBracket, List.findSome?_cons,
    noLong, List.findSome?_cons, short]
  rfl

/-- A sign that starts no longer operator is read alone. -/
theorem step_lone {c : Char} (sign : c ∈ shortOperators) (plain : c ∉ literalSigns)
    (alone : ∀ mark ∈ longOperators, mark.head? ≠ some c) {before : Option Char} {r : Text}
    (quiet : Quiet (c :: r)) : step .code before c r = .single .operator .code ([c], r) := by
  have nonempty : ∀ mark ∈ longOperators, mark ≠ [] := by decide
  refine step_short sign plain (fun mark member => ?_) quiet
  obtain ⟨d, ds, rfl⟩ := List.exists_cons_of_ne_nil (nonempty mark member)
  have other : d ≠ c := by simpa using alone _ member
  simp [startsWith, List.isPrefixOf, other]

/-- A star in front of a text does not change its balance. -/
theorem bracketBalance_star (r : Text) : bracketBalance ('*' :: r) = bracketBalance r := by
  have read : step .code none '*' r = .single .operator .code (['*'], r) :=
    step_lone (by decide) (by decide) (by decide) (quiet_of_foreign (by decide) r)
  have same : lex .code (some '*') r = lex .code none r := lex_before none (.inl rfl)
  have sign : (Lexeme.outline ⟨.operator, ['*']⟩).depth = 0 := by decide
  rw [bracketBalance_eq, bracketBalance_eq, marks, marks, lex_of_step read]
  change Outline.depth (Lexeme.outlines (⟨.operator, ['*']⟩ :: lex .code (some '*') r)) = _
  rw [same]
  simp only [Lexeme.outlines, List.flatMap_cons, Outline.depth_append, sign, Int.zero_add]

theorem step_colon (before : Option Char) (r : Text) :
    step .code before ':' r =
      (beforeRegex? .operator [':'] r).getD (.single .operator .code ([':'], r)) := by
  cases regex : beforeRegex? .operator [':'] r with
  | some s =>
    simp [step, rules, blockComment, lineComment, quoted, sign, after?_cons, openerRegex, openers,
      operatorRegex, operandOperators, regex]
  | none =>
    exact step_lone (by decide) (by decide) (by decide)
      (quiet_of_head (by decide) (Option.map_eq_none_iff.1 regex))

/-- What a colon adds to the balance of the text behind it: a regular expression there is inert. -/
theorem bracketBalance_colon_eq (r : Text) : bracketBalance (':' :: r) =
    match regex? (trimLeft r) with
    | none => bracketBalance (trimLeft r)
    | some (literal, rest) => (Lexeme.outlines (lex .code literal.getLast? rest)).depth := by
  rw [bracketBalance_eq, marks, lex_cons, step_colon, beforeRegex?]
  cases found : regex? (trimLeft r) with
  | none =>
    have same : lex .code (some ':') r = lex .code none r := lex_before none (.inl rfl)
    have sign : (Lexeme.outline ⟨.operator, [':']⟩).depth = 0 := by decide
    rw [bracketBalance_trimLeft, bracketBalance_eq, marks]
    change Outline.depth (Lexeme.outlines (⟨.operator, [':']⟩ :: lex .code (some ':') r)) = _
    rw [same]
    simp only [Lexeme.outlines, List.flatMap_cons, Outline.depth_append, sign, Int.zero_add]
  | some cut =>
    obtain ⟨literal, rest⟩ := cut
    obtain ⟨c, last⟩ : ∃ c, literal.getLast? = some c := by
      cases ends : literal.getLast? with
      | none => exact absurd (List.getLast?_eq_none_iff.1 ends) (append_of_regex? found).2
      | some c => exact ⟨c, rfl⟩
    have shown := Segment.Shows.of_regex (Segment.Shows.of_separator (c := ':') (by decide))
      (r.takeWhile isBlank) literal
    have inert : Outline.depth (some ':' ::
        List.replicate (r.takeWhile isBlank ++ literal).length none) = 0 := by
      have blank : Outline.depth (List.replicate (r.takeWhile isBlank ++ literal).length none) = 0 :=
        Outline.depth_of_unmarked fun x member => List.eq_of_mem_replicate member
      have sign : Outline.depth [some ':'] = 0 := by decide
      rw [← List.singleton_append, Outline.depth_append, sign, blank]
      rfl
    simp only [Option.map_some, Option.getD_some]
    rw [Lexeme.outlines_append, shown.2, Outline.depth_append, inert, Int.zero_add, last]
    simp [Lexeme.spell, List.getLast?_append, List.getLast?_cons, last]

/-- Blanks behind a colon do not change the balance. -/
theorem bracketBalance_colon {gap : Text} (blank : ∀ c ∈ gap, isBlank c = true) (r : Text) :
    bracketBalance (':' :: (gap ++ r)) = bracketBalance (':' :: r) := by
  have same : trimLeft (gap ++ r) = trimLeft r := List.dropWhile_append_of_pos blank
  rw [bracketBalance_colon_eq, bracketBalance_colon_eq, same]

end Ambient
