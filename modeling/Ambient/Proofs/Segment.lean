import Ambient.Proofs.Outline

/-!
Literal content is never structural. A text is written as a sequence of segments: bare runs, bare
brackets, closed literals and comments, and regular expressions behind the sign that lets them
start. However the segments adjoin, the lexer shows exactly the marks that stand bare
(`lex_spell`), so balances count the bare brackets and a separator is found where it stands bare.
-/

namespace Ambient

open Lexer

/-- Characters of a bare run: neither a bracket nor the start of a literal or a comment. -/
def isBare (c : Char) : Bool := !(literalSigns ++ openers ++ closers).contains c

/-- Bare characters that are no separators either. -/
def isDull (c : Char) : Bool := !(literalSigns ++ (openers ++ closers ++ separators)).contains c

theorem isMark_of_isDull {c : Char} (h : isDull c = true) : isMark c = false := by
  simp only [isDull, List.contains_eq_mem, Bool.not_eq_true', decide_eq_false_iff_not,
    List.mem_append, not_or] at h
  simpa [isMark, and_assoc] using h.2

/-- A class of characters is dull when it holds none of the signs. -/
theorem isDull_of_class {p : Char → Bool} {c : Char} (h : p c = true)
    (free : ∀ d ∈ literalSigns ++ (openers ++ closers ++ separators), p d = false) :
    isDull c = true := by
  simp only [isDull, List.contains_eq_mem, Bool.not_eq_true', decide_eq_false_iff_not]
  intro member
  simp [free c member] at h

theorem isDull_of_isNameChar {c : Char} (h : isNameChar c = true) : isDull c = true :=
  isDull_of_class h (by decide)

theorem isDull_of_isBlank {c : Char} (h : isBlank c = true) : isDull c = true :=
  isDull_of_class h (by decide)

theorem isDull_of_isAlpha {c : Char} (h : c.isAlpha = true) : isDull c = true :=
  isDull_of_class h (by decide)

/-- The longest head of a text within a class of dull characters. -/
theorem takeWhile_dull {p : Char → Bool} (h : ∀ c, p c = true → isDull c = true) (t : Text) :
    ∀ c ∈ t.takeWhile p, isDull c = true :=
  fun c member => h c (List.all_eq_true.1 (List.all_takeWhile (l := t)) c member)

/-- What a step on bare text reads: one lexeme, of which only the first character can be a mark. -/
def ReadsBare (c : Char) (r : Text) (s : Step) : Prop :=
  ∃ kind w rest, s = .single kind .code (c :: w, rest) ∧ r = w ++ rest ∧
    (∀ d ∈ w, isDull d = true) ∧ (isDull c = true ∨ w = [] ∧ kind.isInert = false)

theorem readsBare_one {kind : TokenKind} (active : kind.isInert = false) {first : Char → Bool}
    {before : Option Char} {c : Char} {r : Text} {s : Step}
    (h : one kind .code first before (c :: r) = some s) : ReadsBare c r s := by
  rw [one_cons] at h
  split at h <;> cases h
  exact ⟨kind, [], r, rfl, rfl, by simp, .inr ⟨rfl, active⟩⟩

theorem readsBare_run {kind : TokenKind} {first inside : Char → Bool}
    (firstDull : ∀ d, first d = true → isDull d = true)
    (insideDull : ∀ d, inside d = true → isDull d = true)
    {before : Option Char} {c : Char} {r : Text} {s : Step}
    (h : run kind .code first inside before (c :: r) = some s) : ReadsBare c r s := by
  obtain ⟨c, r, ⟨⟩, start, rfl⟩ := run_eq_some h
  exact ⟨kind, r.takeWhile inside, r.dropWhile inside, rfl,
    List.takeWhile_append_dropWhile.symm, takeWhile_dull insideDull r, .inl (firstDull c start)⟩

theorem readsBare_longOperator {before : Option Char} {c : Char} {r : Text} {s : Step}
    (h : longOperator before (c :: r) = some s) : ReadsBare c r s := by
  obtain ⟨mark, member, found⟩ := List.exists_of_findSome?_eq_some h
  obtain ⟨rest, spelled, rfl⟩ := Option.map_eq_some_iff.1 found
  have dull : ∀ mark ∈ longOperators, mark ≠ [] ∧ ∀ d ∈ mark, isDull d = true := by decide
  obtain ⟨nonempty, chars⟩ := dull mark member
  obtain ⟨d, w, rfl⟩ := List.exists_cons_of_ne_nil nonempty
  obtain ⟨rfl, rfl⟩ := List.cons.inj (after?_eq_some_iff.1 spelled)
  exact ⟨.operator, w, rest, rfl, rfl, fun d member => chars d (by simp [member]),
    .inl (chars c (by simp))⟩

theorem readsBare_keyword {before : Option Char} {c : Char} {r : Text} {s : Step}
    (h : keyword before (c :: r) = some s) : ReadsBare c r s := by
  unfold keyword at h
  split at h
  · next known =>
    cases h
    have start : isNameChar c = true := by
      cases start : isNameChar c with
      | true => rfl
      | false =>
        rw [List.takeWhile_cons, start] at known
        exact absurd known (by simp [keywords])
    have split : (c :: r).takeWhile isNameChar = c :: r.takeWhile isNameChar ∧
        (c :: r).dropWhile isNameChar = r.dropWhile isNameChar := by
      simp [start]
    rw [split.1, split.2]
    exact ⟨.keyword, r.takeWhile isNameChar, r.dropWhile isNameChar, rfl,
      List.takeWhile_append_dropWhile.symm, takeWhile_dull (fun _ => isDull_of_isNameChar) r,
      .inl (isDull_of_isNameChar start)⟩
  · cases h

theorem isDull_of_isNameStart {c : Char} (h : isNameStart c = true) : isDull c = true :=
  isDull_of_class h (by decide)

theorem isDull_of_isDecimal {c : Char} (h : isDecimal c = true) : isDull c = true :=
  isDull_of_class h (by decide)

theorem isDull_of_inNumber {c : Char} (h : (isWord c || c == '.') = true) : isDull c = true :=
  isDull_of_class (p := fun c => isWord c || c == '.') h (by decide)

/-- On quiet text a step from a bare character reads a bare lexeme. -/
theorem step_readsBare {before : Option Char} {c : Char} {r : Text} (bare : isBare c = true)
    (quiet : Quiet (c :: r)) : ReadsBare c r (step .code before c r) := by
  simp only [isBare, List.contains_eq_mem, Bool.not_eq_true', decide_eq_false_iff_not,
    List.mem_append, not_or] at bare
  rw [step_of_quiet bare.1.1 quiet]
  cases found : plainRules.findSome? fun rule => rule before (c :: r) with
  | none => exact ⟨.stray, [], r, rfl, rfl, by simp, .inr ⟨rfl, rfl⟩⟩
  | some s =>
    obtain ⟨rule, member, read⟩ := List.exists_of_findSome?_eq_some found
    simp only [plainRules, List.mem_cons, List.not_mem_nil, or_false] at member
    rcases member with rfl | rfl | rfl | rfl | rfl | rfl | rfl | rfl
    · exact readsBare_one rfl read
    · exact readsBare_longOperator read
    · exact readsBare_one rfl read
    · exact readsBare_keyword read
    · exact readsBare_run (fun _ => isDull_of_isNameStart) (fun _ => isDull_of_isNameChar) read
    · exact readsBare_run (fun _ => isDull_of_isDecimal) (fun _ => isDull_of_inNumber) read
    · exact readsBare_run (fun _ => isDull_of_isBlank) (fun _ => isDull_of_isBlank) read
    · exact readsBare_one rfl read

/-- A piece of text whose structure is plain to see. -/
inductive Segment
  /-- Characters outside literals and comments, without brackets. -/
  | run (t : Text) (bare : ∀ c ∈ t, isBare c = true)
  | bracket (c : Char) (sign : c ∈ openers ++ closers)
  | quoted (q : Char) (body : Text) (quote : q = '"' ∨ q = '\'') (inside : QuotedBody q body)
  | template (body : Text) (inside : TemplateBody body)
  | blockComment (body : Text) (inside : ¬ ['*', '/'] <:+: body)
  /-- A comment up to the end of its line, with the line feed. -/
  | lineComment (body : Text) (inside : '\n' ∉ body)
  /-- A regular expression behind an opening bracket or a separator, after optional blanks. -/
  | regex (head : Char) (gap literal : Text) (sign : head ∈ openers ++ separators)
      (blank : ∀ c ∈ gap, isBlank c = true) (inside : RegexLiteral literal)

namespace Segment

def text : Segment → Text
  | run t _ => t
  | bracket c _ => [c]
  | quoted q body _ _ => q :: (body ++ [q])
  | template body _ => '`' :: (body ++ ['`'])
  | blockComment body _ => '/' :: '*' :: (body ++ ['*', '/'])
  | lineComment body _ => '/' :: '/' :: (body ++ ['\n'])
  | regex head gap literal _ _ _ => head :: (gap ++ literal)

/-- The marks that stand bare: those of a run, a bare bracket, and the sign before a regular
expression. -/
def outline : Segment → Outline
  | run t _ => t.map mark?
  | bracket c _ => [some c]
  | regex head gap literal _ _ _ => some head :: List.replicate (gap ++ literal).length none
  | quoted q body quote inside => List.replicate (quoted q body quote inside).text.length none
  | template body inside => List.replicate (template body inside).text.length none
  | blockComment body inside => List.replicate (blockComment body inside).text.length none
  | lineComment body inside => List.replicate (lineComment body inside).text.length none

/-- The text that a sequence of segments spells. -/
def spell (segs : List Segment) : Text := segs.flatMap text

def outlines (segs : List Segment) : Outline := segs.flatMap outline

@[simp] theorem spell_nil : spell [] = [] := rfl

@[simp] theorem spell_cons (seg : Segment) (segs : List Segment) :
    spell (seg :: segs) = seg.text ++ spell segs := List.flatMap_cons

@[simp] theorem outlines_cons (seg : Segment) (segs : List Segment) :
    outlines (seg :: segs) = seg.outline ++ outlines segs := List.flatMap_cons

/-! ### Bare text at the head of a sequence -/

/-- A dull character at the head of a sequence of segments is the first of a run. -/
theorem spell_of_dull {c : Char} (dull : isDull c = true) {segs : List Segment} {r : Text}
    (h : spell segs = c :: r) :
    ∃ rest, r = spell rest ∧ outlines segs = none :: outlines rest := by
  have notSign : c ∉ literalSigns ++ (openers ++ closers ++ separators) := by
    simpa [isDull] using dull
  simp only [List.mem_append, not_or] at notSign
  obtain ⟨notLiteral, ⟨notOpener, notCloser⟩, notSeparator⟩ := notSign
  induction segs with
  | nil => simp at h
  | cons seg segs ih =>
    cases seg with
    | run t bare =>
      cases t with
      | nil => exact ih (by simpa [text] using h)
      | cons d t =>
        obtain ⟨rfl, rest⟩ : d = c ∧ t ++ spell segs = r := by simpa [text] using h
        refine ⟨run t (fun e member => bare e (by simp [member])) :: segs, rest.symm, ?_⟩
        simp [outline, mark?, isMark_of_isDull dull]
    | bracket d sign =>
      obtain ⟨rfl, -⟩ := List.cons.inj h
      simp [notOpener, notCloser] at sign
    | quoted q body quote inside =>
      obtain ⟨rfl, -⟩ := List.cons.inj h
      rcases quote with rfl | rfl <;> simp [literalSigns] at notLiteral
    | template body inside =>
      obtain ⟨rfl, -⟩ := List.cons.inj h
      simp [literalSigns] at notLiteral
    | blockComment body inside =>
      obtain ⟨rfl, -⟩ := List.cons.inj h
      simp [literalSigns] at notLiteral
    | lineComment body inside =>
      obtain ⟨rfl, -⟩ := List.cons.inj h
      simp [literalSigns] at notLiteral
    | regex head gap literal sign blank inside =>
      obtain ⟨rfl, -⟩ := List.cons.inj h
      rcases List.mem_append.1 sign with opener | separator
      · exact absurd opener notOpener
      · exact absurd separator notSeparator

/-- Dull text at the head of a sequence is spelled by runs, and what follows it is a sequence of
segments again. -/
theorem spell_of_dull_append {w : Text} (dull : ∀ c ∈ w, isDull c = true) {segs : List Segment}
    {r : Text} (h : spell segs = w ++ r) :
    ∃ rest, r = spell rest ∧ outlines segs = List.replicate w.length none ++ outlines rest := by
  induction w generalizing segs with
  | nil => exact ⟨segs, h.symm, by simp⟩
  | cons c w ih =>
    obtain ⟨rest, spelled, shown⟩ := spell_of_dull (dull c (by simp)) h
    obtain ⟨last, spelledLast, shownLast⟩ := ih (fun d member => dull d (by simp [member])) spelled.symm
    exact ⟨last, spelledLast, by simp [shown, shownLast, List.replicate_succ]⟩

theorem spell_of_takeWhile {p : Char → Bool} (dull : ∀ c, p c = true → isDull c = true)
    (segs : List Segment) : ∃ rest, (spell segs).dropWhile p = spell rest ∧
      outlines segs = List.replicate ((spell segs).takeWhile p).length none ++ outlines rest := by
  obtain ⟨rest, spelled, shown⟩ := spell_of_dull_append (takeWhile_dull dull (spell segs))
    List.takeWhile_append_dropWhile.symm
  exact ⟨rest, spelled, shown⟩

/-- A regular expression starts only behind its sign, never at the head of a segment. -/
theorem regex?_spell (segs : List Segment) : regex? (spell segs) = none := by
  induction segs with
  | nil => rfl
  | cons seg segs ih =>
    cases seg with
    | run t bare =>
      cases t with
      | nil => exact ih
      | cons c t =>
        have bareHead := bare c (by simp)
        refine regex?_of_head? fun slash => ?_
        obtain rfl : c = '/' := by simpa [text] using slash
        simp [isBare, literalSigns] at bareHead
    | bracket c sign =>
      refine regex?_of_head? fun slash => ?_
      obtain rfl : c = '/' := by simpa [text] using slash
      simp [openers, closers] at sign
    | quoted q body quote inside =>
      refine regex?_of_head? fun slash => ?_
      obtain rfl : q = '/' := by simpa [text] using slash
      simp at quote
    | template body inside => exact regex?_of_head? (by simp [text])
    | blockComment body inside => simp [text, regex?]
    | lineComment body inside => simp [text, regex?]
    | regex head gap literal sign blank inside =>
      refine regex?_of_head? fun slash => ?_
      obtain rfl : head = '/' := by simpa [text] using slash
      simp [openers, separators] at sign

/-- Whatever stands before a sequence of segments, no regular expression follows it. -/
theorem quiet_cons_spell (c : Char) (segs : List Segment) : Quiet (c :: spell segs) := by
  have dull : ∀ head ∈ operandHeads, head ≠ [] ∧ ∀ d ∈ head.tail, isDull d = true := by decide
  intro head member r spelled
  obtain ⟨nonempty, tail⟩ := dull head member
  obtain ⟨d, w, rfl⟩ := List.exists_cons_of_ne_nil nonempty
  obtain ⟨rest, rfl, -⟩ := spell_of_dull_append tail (List.cons.inj spelled).2
  obtain ⟨last, left, -⟩ := spell_of_takeWhile (fun _ => isDull_of_isBlank) rest
  rw [trimLeft, left, regex?_spell]

/-! ### The lexer on a sequence of segments -/

/-- The lexemes are sharp and show the outline `o`. -/
def Shows (ls : List Lexeme) (o : Outline) : Prop :=
  (∀ l ∈ ls, l.Sharp) ∧ Lexeme.outlines ls = o

theorem Shows.append {ls ms : List Lexeme} {o p : Outline} (h : Shows ls o) (k : Shows ms p) :
    Shows (ls ++ ms) (o ++ p) := by
  refine ⟨fun l member => ?_, by rw [Lexeme.outlines_append, h.2, k.2]⟩
  rcases List.mem_append.1 member with member | member
  · exact h.1 l member
  · exact k.1 l member

theorem Shows.of_inert {ls : List Lexeme} {t : Text} (h : InertSpell ls t) :
    Shows ls (List.replicate t.length none) := by
  refine ⟨fun l member => .inl (h.1 l member), ?_⟩
  obtain ⟨inert, rfl⟩ := h
  induction ls with
  | nil => rfl
  | cons l ls ih =>
    have later := ih fun m member => inert m (by simp [member])
    rw [Lexeme.outlines_cons, later, Lexeme.outline_of_inert (inert l (by simp))]
    simp [Lexeme.spell]

theorem Shows.of_literal {kind : TokenKind} (inert : kind.isInert = true) (read : Text) :
    Shows [⟨kind, read⟩] (List.replicate read.length none) := by
  simpa [Lexeme.spell] using Shows.of_inert (InertSpell.nil.cons kind inert read)

theorem Shows.of_bracket {c : Char} (sign : c ∈ openers ++ closers) :
    Shows [⟨.bracket, [c]⟩] [some c] := by
  refine ⟨fun l member => ?_, by simp [Lexeme.outlines, Lexeme.outline, mark?,
    Lexeme.isMark_of_bracket sign, TokenKind.isInert, TokenKind.isString, TokenKind.isGap,
    TokenKind.isComment]⟩
  obtain rfl := List.mem_singleton.1 member
  exact .inr (.inr ⟨c, rfl, rfl, fun _ => rfl⟩)

/-- A lexeme read from bare text shows its first character when that is a mark. -/
theorem Shows.of_bare {kind : TokenKind} {c : Char} {w : Text} (bare : isBare c = true)
    (dull : ∀ d ∈ w, isDull d = true) (alone : isDull c = true ∨ w = [] ∧ kind.isInert = false) :
    Shows [⟨kind, c :: w⟩] (mark? c :: List.replicate w.length none) := by
  have notBracket : c ∉ openers ++ closers := by
    simp only [isBare, List.contains_eq_mem, Bool.not_eq_true', decide_eq_false_iff_not,
      List.append_assoc, List.mem_append, not_or] at bare
    simpa using bare.2
  rcases alone with first | ⟨rfl, active⟩
  · have unmarked : ∀ d ∈ c :: w, isMark d = false := by
      intro d member
      rcases List.mem_cons.1 member with rfl | member
      · exact isMark_of_isDull first
      · exact isMark_of_isDull (dull d member)
    refine ⟨fun l member => ?_, ?_⟩
    · obtain rfl := List.mem_singleton.1 member
      exact .inr (.inl unmarked)
    have shown := List.eq_replicate_iff.2
      ⟨rfl, Lexeme.outline_of_unmarked (l := ⟨kind, c :: w⟩) unmarked⟩
    simpa [Lexeme.outlines, Lexeme.outline, mark?, isMark_of_isDull first,
      List.replicate_succ] using shown
  · refine ⟨fun l member => ?_, by simp [Lexeme.outlines, Lexeme.outline, active]⟩
    obtain rfl := List.mem_singleton.1 member
    exact .inr (.inr ⟨c, rfl, active, fun member => absurd member notBracket⟩)

theorem Shows.of_separator {c : Char} (sign : c ∈ separators) :
    Shows [⟨.operator, [c]⟩] [some c] := by
  have known : ∀ c ∈ separators, isBare c = true ∧ mark? c = some c := by decide
  obtain ⟨bare, mark⟩ := known c sign
  simpa [mark] using Shows.of_bare (w := []) bare (by simp) (.inr ⟨rfl, rfl⟩)

/-- The lexemes of a regular expression behind its sign show the sign alone. -/
theorem Shows.of_regex {kind : TokenKind} {head : Char} (shown : Shows [⟨kind, [head]⟩] [some head])
    (gap literal : Text) :
    Shows (⟨kind, [head]⟩ :: (if gap = [] then [] else [⟨.blank, gap⟩]) ++ [⟨.regex, literal⟩])
      (some head :: List.replicate (gap ++ literal).length none) := by
  have inert : InertSpell ((if gap = [] then [] else [⟨.blank, gap⟩]) ++ [⟨.regex, literal⟩])
      (gap ++ literal) := by
    by_cases empty : gap = []
    · simpa [empty] using InertSpell.nil.cons .regex rfl literal
    · simpa [empty] using (InertSpell.nil.cons .regex rfl literal).cons .blank
        rfl gap
  exact shown.append (.of_inert inert)

/-- The lexer reads lexemes off the sequence that show their part of its outline, and leaves a
shorter sequence. -/
def Advances (before : Option Char) (segs : List Segment) : Prop :=
  ∃ ls o last rest, lex .code before (spell segs) = ls ++ lex .code last (spell rest) ∧
    Shows ls o ∧ outlines segs = o ++ outlines rest ∧ (spell rest).length < (spell segs).length

variable (segs : List Segment) (before : Option Char)

/-- Names, numbers, operators and blanks may run on into the segments that follow. -/
theorem advances_run (c : Char) (t : Text) (bare : ∀ d ∈ c :: t, isBare d = true) :
    Advances before (run (c :: t) bare :: segs) := by
  let after : List Segment := run t (fun d member => bare d (by simp [member])) :: segs
  have whole : spell (run (c :: t) bare :: segs) = c :: spell after := by simp [after, text]
  obtain ⟨kind, w, rest, read, spelled, dull, alone⟩ :=
    show ReadsBare c (spell after) (step .code before c (spell after)) from
      step_readsBare (bare c (by simp)) (quiet_cons_spell c after)
  obtain ⟨last, rfl, shown⟩ := spell_of_dull_append dull spelled
  have marks : outlines (run (c :: t) bare :: segs) =
      mark? c :: List.replicate w.length none ++ outlines last := by
    rw [List.cons_append, ← shown]
    simp [after, outline]
  refine ⟨_, _, (c :: w).getLast?, last, ?_, .of_bare (bare c (by simp)) dull alone, marks, ?_⟩
  · rw [whole, lex_of_step read, List.singleton_append]
  · rw [whole, spelled, List.length_cons, List.length_append]
    omega

theorem advances_bracket (c : Char) (sign : c ∈ openers ++ closers) :
    Advances before (bracket c sign :: segs) := by
  have read : step .code before c (spell segs) = _ := step_bracket sign (quiet_cons_spell c segs)
  exact ⟨[⟨.bracket, [c]⟩], _, [c].getLast?, segs, lex_of_step read, .of_bracket sign, rfl,
    Nat.lt_succ_self _⟩

/-- A literal that the lexer reads as one lexeme. -/
theorem advances_literal (kind : TokenKind) (inert : kind.isInert = true) {c : Char} {r : Text}
    {segs rest : List Segment} (spelled : spell segs = c :: (r ++ spell rest))
    (read : step .code before c (r ++ spell rest) = .single kind .code (c :: r, spell rest))
    (shown : outlines segs = List.replicate (c :: r).length none ++ outlines rest) :
    Advances before segs := by
  refine ⟨_, _, (c :: r).getLast?, rest, ?_, .of_literal inert (c :: r), shown, ?_⟩
  · rw [spelled, lex_of_step read, List.singleton_append]
  · rw [spelled, List.length_cons, List.length_append]
    omega

theorem advances_quoted (q : Char) (body : Text) (quote : q = '"' ∨ q = '\'')
    (inside : QuotedBody q body) : Advances before (quoted q body quote inside :: segs) := by
  obtain ⟨kind, inert, known⟩ : ∃ kind : TokenKind, kind.isInert = true ∧
      (q = '"' ∧ kind = .doubleQuoted ∨ q = '\'' ∧ kind = .singleQuoted) := by
    rcases quote with rfl | rfl
    · exact ⟨.doubleQuoted, rfl, .inl ⟨rfl, rfl⟩⟩
    · exact ⟨.singleQuoted, rfl, .inr ⟨rfl, rfl⟩⟩
  have whole : spell (quoted q body quote inside :: segs) = q :: (body ++ [q] ++ spell segs) := by
    simp [text]
  refine advances_literal before kind inert whole ?_ (outlines_cons _ _)
  rw [List.append_assoc]
  exact step_quoted known inside (spell segs)

theorem advances_template (body : Text) (inside : TemplateBody body) :
    Advances before (template body inside :: segs) := by
  have whole : spell (template body inside :: segs) = '`' :: (body ++ '`' :: spell segs) := by
    simp [text]
  obtain ⟨ls, inert, lexed⟩ := lex_template inside
  refine ⟨_, _, some '`', segs, ?_, .of_inert (inert.cons .template rfl ['`']), outlines_cons _ _, ?_⟩
  · rw [whole, lex_of_step (step_backQuote before _), List.getLast?_singleton, lexed,
      List.cons_append]
  · rw [whole, List.length_cons, List.length_append, List.length_cons]
    omega

theorem advances_blockComment (body : Text) (inside : ¬ ['*', '/'] <:+: body) :
    Advances before (blockComment body inside :: segs) := by
  have whole : spell (blockComment body inside :: segs) =
      '/' :: ('*' :: (body ++ ['*', '/']) ++ spell segs) := by simp [text]
  refine advances_literal before .blockComment rfl whole ?_ (outlines_cons _ _)
  rw [List.cons_append, List.append_assoc]
  exact step_blockComment inside (spell segs)

/-- The line feed behind a comment is left to the blanks that follow. -/
theorem advances_lineComment (body : Text) (inside : '\n' ∉ body) :
    Advances before (lineComment body inside :: segs) := by
  let after : List Segment := run ['\n'] (by decide) :: segs
  have feed : outlines (lineComment body inside :: segs) =
      List.replicate ('/' :: '/' :: body).length none ++ outlines after := by
    have first : outlines after = none :: outlines segs := by
      rw [outlines_cons]
      rfl
    simp [first, outline, text, List.replicate_succ']
  have whole : spell (lineComment body inside :: segs) = '/' :: ('/' :: body ++ spell after) := by
    simp [after, text]
  exact advances_literal before .lineComment rfl whole (step_lineComment inside (spell segs)) feed

/-- Letters behind a regular expression are read as its flags. -/
theorem advances_regex (head : Char) (gap literal : Text) (sign : head ∈ openers ++ separators)
    (blank : ∀ c ∈ gap, isBlank c = true) (inside : RegexLiteral literal) :
    Advances before (regex head gap literal sign blank inside :: segs) := by
  obtain ⟨kind, known, shown⟩ : ∃ kind : TokenKind,
      (head ∈ openers ∧ kind = .bracket ∨ head ∈ separators ∧ kind = .operator) ∧
        Shows [⟨kind, [head]⟩] [some head] := by
    rcases List.mem_append.1 sign with opener | separator
    · exact ⟨.bracket, .inl ⟨opener, rfl⟩, .of_bracket (List.mem_append_left _ opener)⟩
    · exact ⟨.operator, .inr ⟨separator, rfl⟩, .of_separator separator⟩
  have whole : spell (regex head gap literal sign blank inside :: segs) =
      head :: (gap ++ literal ++ spell segs) := by simp [text]
  obtain ⟨last, left, flags⟩ := spell_of_takeWhile (p := Char.isAlpha) (fun _ => isDull_of_isAlpha) segs
  have read : step .code before head _ = _ := step_regex known blank inside (spell segs)
  rw [left] at read
  have fewer : (spell last).length ≤ (spell segs).length := by
    rw [← left]
    exact (List.dropWhile_sublist _).length_le
  have marks : outlines (regex head gap literal sign blank inside :: segs) =
      some head :: List.replicate (gap ++ (literal ++ (spell segs).takeWhile Char.isAlpha)).length
        none ++ outlines last := by
    simp [outline, flags, ← List.append_assoc, List.replicate_append_replicate, Nat.add_assoc]
  have lexed := lex_cons .code before head (gap ++ literal ++ spell segs)
  rw [read, ← whole] at lexed
  refine ⟨_, _, _, last, lexed, .of_regex shown gap _, marks, ?_⟩
  rw [whole, List.length_cons, List.length_append]
  omega

/-- A sequence spells nothing, or the lexer reads on. -/
theorem advances : spell segs = [] ∧ outlines segs = [] ∨ Advances before segs := by
  induction segs with
  | nil => exact .inl ⟨rfl, rfl⟩
  | cons seg segs ih =>
    cases seg with
    | run t bare =>
      cases t with
      | nil => exact ih
      | cons c t => exact .inr (advances_run segs before c t bare)
    | bracket c sign => exact .inr (advances_bracket segs before c sign)
    | quoted q body quote inside => exact .inr (advances_quoted segs before q body quote inside)
    | template body inside => exact .inr (advances_template segs before body inside)
    | blockComment body inside => exact .inr (advances_blockComment segs before body inside)
    | lineComment body inside => exact .inr (advances_lineComment segs before body inside)
    | regex head gap literal sign blank inside =>
      exact .inr (advances_regex segs before head gap literal sign blank inside)

/-- **Segments keep their structure.** However segments adjoin, the lexer shows exactly the marks
that stand bare. -/
theorem lex_spell : Shows (lex .code before (spell segs)) (outlines segs) := by
  generalize size : (spell segs).length = n
  induction n using Nat.strongRecOn generalizing segs before with
  | ind n ih =>
    rcases advances segs before with ⟨empty, bare⟩ | ⟨ls, o, last, rest, lexed, shows, marks, fewer⟩
    · rw [empty, bare]
      exact ⟨by simp [lex], by simp [lex, Lexeme.outlines]⟩
    · rw [lexed, marks]
      exact shows.append (ih _ (size ▸ fewer) rest last rfl)

end Segment

open Outline Segment

/-- The separators that a search looks for. -/
inductive Separator
  | colon
  | comma
  | semicolon
  deriving DecidableEq, Repr

def Separator.char : Separator → Char
  | colon => ':'
  | comma => ','
  | semicolon => ';'

/-- **Literal content is never structural.** For every sequence of segments the balances count the
bare brackets, and a separator is found at its first bare place outside all bare brackets. -/
theorem literal_content_is_inert (segs : List Segment) :
    braceBalance (spell segs) = (outlines segs).braceDepth ∧
    bracketBalance (spell segs) = (outlines segs).depth ∧
    ∀ mark : Separator,
      (∀ n, Nesting.find? false [mark.char] 0 (spell segs) = some n ↔
        TopAt mark.char (outlines segs) n ∧ ∀ m < n, ¬ TopAt mark.char (outlines segs) m) ∧
      (Nesting.find? false [mark.char] 0 (spell segs) = none ↔
        ∀ n, ¬ TopAt mark.char (outlines segs) n) := by
  obtain ⟨sharp, shown⟩ := lex_spell segs none
  obtain ⟨brackets, braces⟩ := Lexeme.balance_place sharp 0
  rw [shown] at brackets braces
  refine ⟨braces, brackets, fun mark => ?_⟩
  have isMark : isMark mark.char = true := by cases mark <;> rfl
  have found : Nesting.find? false [mark.char] 0 (spell segs) =
      firstTop mark.char 0 (outlines segs) := by
    simpa [Nesting.find?, tokens, shown] using Lexeme.findFrom_place sharp isMark 0 0
  rw [found]
  exact ⟨firstTop_zero_iff mark.char (outlines segs), firstTop_eq_none_iff mark.char (outlines segs)⟩

end Ambient
