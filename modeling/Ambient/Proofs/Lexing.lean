import Ambient.Token.Lexer

/-!
What one step of the lexer reads. In code the character that a step starts with decides almost
everything: quotes, comments and brackets are read by their own rules, and a regular expression is
read only behind an operand sign. A text is *quiet* when no such literal follows the sign at its
head; on a quiet text the three rules for regular expressions do not apply.
-/

namespace Ambient.Lexer

/-- What is said of the characters of a list is decided on the list, not on all characters. -/
instance (priority := high) decidableMem {p : Char → Prop} [DecidablePred p] (t : List Char) :
    Decidable (∀ c ∈ t, p c) :=
  List.decidableBAll p t

instance (priority := high) decidableOptional {p : Char → Prop} [DecidablePred p]
    (o : Option Char) : Decidable (∀ c ∈ o, p c) :=
  match o with
  | none => .isTrue nofun
  | some c => decidable_of_iff (p c) (by simp)

@[simp] theorem after?_nil (t : Text) : after? [] t = some t := rfl

theorem after?_cons (w c : Char) (ws r : Text) :
    after? (w :: ws) (c :: r) = if w = c then after? ws r else none := rfl

theorem after?_append (w r : Text) : after? w (w ++ r) = some r := after?_eq_some_iff.2 rfl

/-! ### Literals -/

/-- The inside of a literal in quotes `q`: no bare quote, backslash or line feed, and a backslash
takes the character after it. -/
inductive QuotedBody (q : Char) : Text → Prop
  | nil : QuotedBody q []
  | plain {c : Char} {t : Text} : c ≠ q → c ≠ '\\' → c ≠ '\n' → QuotedBody q t → QuotedBody q (c :: t)
  | escaped {c : Char} {t : Text} : QuotedBody q t → QuotedBody q ('\\' :: c :: t)

theorem quotedTail?_quote (q : Char) (r : Text) : quotedTail? q (q :: r) = some ([q], r) := by
  rw [quotedTail?.eq_def]
  simp

theorem quotedTail?_plain {q c : Char} (notQuote : c ≠ q) (notBackslash : c ≠ '\\')
    (notFeed : c ≠ '\n') (r : Text) :
    quotedTail? q (c :: r) = (quotedTail? q r).map (onto [c]) := by
  rw [quotedTail?.eq_def]
  simp [notQuote, notBackslash, notFeed]

theorem quotedTail?_of_body {q : Char} (quote : q ≠ '\\') {body : Text} (h : QuotedBody q body)
    (rest : Text) : quotedTail? q (body ++ q :: rest) = some (body ++ [q], rest) := by
  induction h with
  | nil => exact quotedTail?_quote q rest
  | plain notQuote notBackslash notFeed _ ih =>
    simp [quotedTail?_plain notQuote notBackslash notFeed, ih, onto]
  | escaped _ ih => simp [quotedTail?, Ne.symm quote, ih, onto]

/-- The inside of a template literal. A dollar sign that opens a substitution takes everything up
to the next closing brace. -/
inductive TemplateBody : Text → Prop
  | nil : TemplateBody []
  | plain {c : Char} {t : Text} : c ≠ '`' → c ≠ '\\' → c ≠ '$' → TemplateBody t →
      TemplateBody (c :: t)
  | dollar {t : Text} : t.head? ≠ some '{' → TemplateBody t → TemplateBody ('$' :: t)
  | escaped {c : Char} {t : Text} : TemplateBody t → TemplateBody ('\\' :: c :: t)
  | substitution {inside t : Text} : '}' ∉ inside → TemplateBody t →
      TemplateBody ('$' :: '{' :: inside ++ '}' :: t)

/-- A character class of a regular expression, without its brackets. -/
inductive ClassBody : Text → Prop
  | nil : ClassBody []
  | plain {c : Char} {t : Text} : c ≠ ']' → c ≠ '\\' → c ≠ '\n' → ClassBody t → ClassBody (c :: t)
  | escaped {c : Char} {t : Text} : c ≠ '\n' → ClassBody t → ClassBody ('\\' :: c :: t)

/-- The inside of a regular expression literal; a character class may hold bare slashes. -/
inductive RegexBody : Text → Prop
  | nil : RegexBody []
  | plain {c : Char} {t : Text} : c ≠ '/' → c ≠ '\\' → c ≠ '\n' → c ≠ '[' → RegexBody t →
      RegexBody (c :: t)
  | escaped {c : Char} {t : Text} : c ≠ '\n' → RegexBody t → RegexBody ('\\' :: c :: t)
  | charClass {inside t : Text} : ClassBody inside → RegexBody t →
      RegexBody ('[' :: inside ++ ']' :: t)

theorem regexTail?_inClass {c : Char} (notBackslash : c ≠ '\\') (notFeed : c ≠ '\n') (r : Text) :
    regexTail? true (c :: r) = (regexTail? (c != ']') r).map (onto [c]) := by
  rw [regexTail?.eq_def]
  simp [notBackslash, notFeed]

theorem regexTail?_slash (r : Text) : regexTail? false ('/' :: r) = some (['/'], r) := by
  rw [regexTail?.eq_def]
  simp

theorem regexTail?_plain {c : Char} (notSlash : c ≠ '/') (notBackslash : c ≠ '\\')
    (notFeed : c ≠ '\n') (r : Text) :
    regexTail? false (c :: r) = (regexTail? (c == '[') r).map (onto [c]) := by
  rw [regexTail?.eq_def]
  simp [notSlash, notBackslash, notFeed]

theorem map_onto_onto (front more : Text) (cut : Option (Text × Text)) :
    (cut.map (onto more)).map (onto front) = cut.map (onto (front ++ more)) := by
  cases cut <;> simp [onto]

theorem regexTail?_of_class {inside : Text} (h : ClassBody inside) (rest : Text) :
    regexTail? true (inside ++ ']' :: rest) =
      (regexTail? false rest).map (onto (inside ++ [']'])) := by
  induction h with
  | nil => rw [List.nil_append, regexTail?_inClass (by decide) (by decide)]; rfl
  | @plain c t notClose notBackslash notFeed _ ih =>
    have inside : (c != ']') = true := by simpa using notClose
    rw [List.cons_append, regexTail?_inClass notBackslash notFeed, inside, ih, map_onto_onto]
    rfl
  | escaped notFeed _ ih =>
    simp only [List.cons_append, regexTail?, notFeed, ih, map_onto_onto]
    simp

theorem regexTail?_of_body {body : Text} (h : RegexBody body) (rest : Text) :
    regexTail? false (body ++ '/' :: rest) = some (body ++ ['/'], rest) := by
  induction h with
  | nil => exact regexTail?_slash rest
  | @plain c t notSlash notBackslash notFeed notOpen _ ih =>
    have outside : (c == '[') = false := by simpa using notOpen
    rw [List.cons_append, regexTail?_plain notSlash notBackslash notFeed, outside, ih]
    rfl
  | escaped notFeed _ ih => simp [regexTail?, notFeed, ih, onto]
  | @charClass inside t chars _ ih =>
    have inner := regexTail?_of_class chars (t ++ '/' :: rest)
    rw [ih] at inner
    have whole : '[' :: inside ++ ']' :: t ++ '/' :: rest =
        '[' :: (inside ++ ']' :: (t ++ '/' :: rest)) := by simp
    rw [whole, regexTail?_plain (by decide) (by decide) (by decide)]
    simp [inner, onto]

/-- A regular expression literal: its inside is not empty and does not make it a comment. -/
def RegexLiteral (t : Text) : Prop :=
  ∃ body flags, t = '/' :: body ++ '/' :: flags ∧ RegexBody body ∧ body ≠ [] ∧
    body.head? ≠ some '*' ∧ ∀ c ∈ flags, c.isAlpha = true

theorem RegexBody.head?_ne_slash {body : Text} (h : RegexBody body) : body.head? ≠ some '/' := by
  cases h with
  | nil | escaped | charClass => simp
  | plain notSlash => simpa using notSlash

/-- The letters after a literal count as flags, whoever wrote them. -/
theorem regex?_append {literal : Text} (h : RegexLiteral literal) (rest : Text) :
    regex? (literal ++ rest) =
      some (literal ++ rest.takeWhile Char.isAlpha, rest.dropWhile Char.isAlpha) := by
  obtain ⟨body, flags, rfl, inside, nonempty, noStar, letters⟩ := h
  obtain ⟨c, t, rfl⟩ := List.exists_cons_of_ne_nil nonempty
  have noSlash : c ≠ '/' := by simpa using inside.head?_ne_slash
  have star : c ≠ '*' := by simpa using noStar
  have read := regexTail?_of_body inside (flags ++ rest)
  simp only [List.cons_append, List.append_assoc] at read ⊢
  simp [regex?, star, noSlash, read, List.takeWhile_append_of_pos letters,
    List.dropWhile_append_of_pos letters]

theorem regex?_of_head? {t : Text} (h : t.head? ≠ some '/') : regex? t = none := by
  cases t with
  | nil => rfl
  | cons c r =>
    have other : c ≠ '/' := by simpa using h
    unfold regex?
    split
    · next spelled => exact absurd (List.cons.inj spelled).1 other
    · rfl

/-! ### Comments -/

theorem blockTail_append_close {body : Text} (h : ¬ ['*', '/'] <:+: body) (rest : Text) :
    blockTail (body ++ '*' :: '/' :: rest) = (body ++ ['*', '/'], rest) := by
  induction body with
  | nil => simp [blockTail]
  | cons c t ih =>
    have inner := ih fun inside => h (inside.trans (List.suffix_cons c t).isInfix)
    have goesOn : ¬(c = '*' ∧ (t ++ '*' :: '/' :: rest).head? = some '/') := by
      rintro ⟨rfl, head⟩
      cases t with
      | nil => simp at head
      | cons d t =>
        have close : d = '/' := by simpa using head
        exact h ⟨[], t, by simp [close]⟩
    rw [List.cons_append, blockTail, if_neg goesOn, inner]
    rfl

/-! ### Steps in code -/

/-- What a regular expression literal may stand behind. -/
def operandHeads : List Text := openers.map ([·]) ++ operandOperators ++ operandWords

/-- No regular expression literal follows an operand sign at the head of the text. -/
def Quiet (t : Text) : Prop :=
  ∀ head ∈ operandHeads, ∀ r, t = head ++ r → regex? (trimLeft r) = none

theorem Quiet.findSome?_eq_none {t : Text} (h : Quiet t) (kind : TokenKind) (heads : List Text)
    (known : ∀ head ∈ heads, head ∈ operandHeads) :
    (heads.findSome? fun head => (after? head t).bind (beforeRegex? kind head)) = none := by
  refine List.findSome?_eq_none_iff.2 fun head member => ?_
  cases found : after? head t with
  | none => rfl
  | some r =>
    have none := h head (known head member) r (after?_eq_some_iff.1 found)
    simp [beforeRegex?, none]

theorem Quiet.openerRegex {t : Text} (h : Quiet t) (before : Option Char) :
    openerRegex before t = none := by
  have none := h.findSome?_eq_none .bracket (openers.map ([·]))
    fun head member => List.mem_append_left _ (List.mem_append_left _ member)
  rwa [List.findSome?_map] at none

theorem Quiet.operatorRegex {t : Text} (h : Quiet t) (before : Option Char) :
    operatorRegex before t = none :=
  h.findSome?_eq_none .operator operandOperators fun _ member =>
    List.mem_append_left _ (List.mem_append_right _ member)

theorem Quiet.wordRegex {t : Text} (h : Quiet t) (before : Option Char) :
    wordRegex before t = none := by
  have none := h.findSome?_eq_none .name operandWords fun _ member => List.mem_append_right _ member
  unfold Lexer.wordRegex
  split
  · exact none
  · rfl

/-- Where a character is an operand sign of its own only, the text behind it decides. -/
theorem quiet_of_head {c : Char} (single : ∀ head ∈ operandHeads, head.head? = some c → head = [c])
    {r : Text} (none : regex? (trimLeft r) = none) : Quiet (c :: r) := by
  have known : ∀ head ∈ operandHeads, head ≠ [] := by decide
  intro head member rest spelled
  obtain ⟨d, ds, rfl⟩ := List.exists_cons_of_ne_nil (known head member)
  obtain ⟨rfl, rfl⟩ := List.cons.inj spelled
  obtain ⟨-, rfl⟩ := List.cons.inj (single _ member rfl)
  exact none

/-- A character that starts no operand sign is never read together with a regular expression. -/
theorem quiet_of_foreign {c : Char} (foreign : ∀ head ∈ operandHeads, head.head? ≠ some c) (r : Text) :
    Quiet (c :: r) := by
  have known : ∀ head ∈ operandHeads, head ≠ [] := by decide
  intro head member rest spelled
  obtain ⟨d, ds, rfl⟩ := List.exists_cons_of_ne_nil (known head member)
  exact absurd (congrArg some (List.cons.inj spelled).1.symm) (foreign _ member)

theorem one_cons (kind : TokenKind) (next : Mode) (first : Char → Bool) (before : Option Char)
    (c : Char) (r : Text) : one kind next first before (c :: r) =
      if first c then some (.single kind next ([c], r)) else none := by
  cases r <;> rfl

/-- The rules of code that read neither a literal nor a comment. -/
def plainRules : List Rule :=
  [bracket, longOperator, shortOperator, keyword, name, number, blanks, other]

/-- The characters that open a literal or a comment. -/
def literalSigns : List Char := ['/', '"', '\'', '`']

theorem step_of_quiet {before : Option Char} {c : Char} {r : Text} (sign : c ∉ literalSigns)
    (quiet : Quiet (c :: r)) :
    step .code before c r = (plainRules.findSome? fun rule => rule before (c :: r)).getD
      (.single .stray .code ([c], r)) := by
  simp only [literalSigns, List.mem_cons, List.not_mem_nil, or_false, not_or] at sign
  obtain ⟨slash, double, single, back⟩ := sign
  simp [step, rules, plainRules, blockComment, lineComment, quoted, Lexer.sign, after?_cons,
    Ne.symm slash, Ne.symm double, Ne.symm single, Ne.symm back, quiet.openerRegex before,
    quiet.operatorRegex before, quiet.wordRegex before]

theorem step_bracket {before : Option Char} {c : Char} {r : Text} (sign : c ∈ openers ++ closers)
    (quiet : Quiet (c :: r)) : step .code before c r = .single .bracket .code ([c], r) := by
  have plain : c ∉ literalSigns := by
    intro literal
    simp only [openers, closers, literalSigns, List.cons_append, List.nil_append, List.mem_cons,
      List.not_mem_nil, or_false] at sign literal
    rcases sign with rfl | rfl | rfl | rfl | rfl | rfl <;> simp at literal
  have read : bracket before (c :: r) = some (.single .bracket .code ([c], r)) := by
    rw [bracket, one_cons, if_pos (by simpa using sign)]
  rw [step_of_quiet plain quiet, plainRules, List.findSome?_cons, read]
  rfl

theorem step_quoted {q : Char} {kind : TokenKind}
    (quote : q = '"' ∧ kind = .doubleQuoted ∨ q = '\'' ∧ kind = .singleQuoted)
    {before : Option Char} {body : Text} (h : QuotedBody q body) (rest : Text) :
    step .code before q (body ++ q :: rest) =
      .single kind .code (q :: body ++ [q], rest) := by
  rcases quote with ⟨rfl, rfl⟩ | ⟨rfl, rfl⟩
  · simp [step, rules, blockComment, lineComment, quoted, after?_cons,
      quotedTail?_of_body (by decide) h, onto]
  · simp [step, rules, blockComment, lineComment, quoted, after?_cons,
      quotedTail?_of_body (by decide) h, onto]

theorem step_backQuote (before : Option Char) (r : Text) :
    step .code before '`' r = .single .template .template (['`'], r) := by
  simp [step, rules, blockComment, lineComment, quoted, sign, after?_cons]

theorem step_blockComment {before : Option Char} {body : Text} (h : ¬ ['*', '/'] <:+: body)
    (rest : Text) :
    step .code before '/' ('*' :: (body ++ '*' :: '/' :: rest)) =
      .single .blockComment .code ('/' :: '*' :: (body ++ ['*', '/']), rest) := by
  simp [step, rules, blockComment, after?_cons, blockTail_append_close h, onto]

theorem step_lineComment {before : Option Char} {body : Text} (h : '\n' ∉ body) (rest : Text) :
    step .code before '/' ('/' :: (body ++ '\n' :: rest)) =
      .single .lineComment .code ('/' :: '/' :: body, '\n' :: rest) := by
  have inside : ∀ c ∈ body, (c != '\n') = true := by
    intro c member
    simpa using fun feed : c = '\n' => h (feed ▸ member)
  simp [step, rules, blockComment, lineComment, after?_cons, onto,
    List.takeWhile_append_of_pos inside, List.dropWhile_append_of_pos inside]

/-- Signs that part the members of a list or a body. -/
def separators : List Char := [':', ',', ';']

/-- A literal behind an opening bracket or a separator is read together with it. -/
theorem step_regex {kind : TokenKind} {head : Char}
    (sign : head ∈ openers ∧ kind = .bracket ∨ head ∈ separators ∧ kind = .operator)
    {before : Option Char} {gap literal : Text} (blank : ∀ c ∈ gap, isBlank c = true)
    (h : RegexLiteral literal) (rest : Text) :
    step .code before head (gap ++ literal ++ rest) =
      ⟨⟨kind, [head]⟩ :: (if gap = [] then [] else [⟨.blank, gap⟩]) ++
        [⟨.regex, literal ++ rest.takeWhile Char.isAlpha⟩], rest.dropWhile Char.isAlpha, .code⟩ := by
  have slash : ∃ r, literal ++ rest = '/' :: r := by
    obtain ⟨body, flags, rfl, -⟩ := h
    exact ⟨_, rfl⟩
  obtain ⟨r, spelled⟩ := slash
  have stop : (literal ++ rest).takeWhile isBlank = [] ∧
      (literal ++ rest).dropWhile isBlank = literal ++ rest := by
    rw [spelled]
    exact ⟨rfl, rfl⟩
  have read : beforeRegex? kind [head] (gap ++ literal ++ rest) =
      some ⟨⟨kind, [head]⟩ :: (if gap = [] then [] else [⟨.blank, gap⟩]) ++
        [⟨.regex, literal ++ rest.takeWhile Char.isAlpha⟩], rest.dropWhile Char.isAlpha, .code⟩ := by
    simp only [beforeRegex?, trimLeft, List.append_assoc, List.dropWhile_append_of_pos blank,
      List.takeWhile_append_of_pos blank, stop.1, stop.2, List.append_nil, regex?_append h,
      Option.map_some]
  generalize gap ++ literal ++ rest = t at read
  rcases sign with ⟨opener, rfl⟩ | ⟨separator, rfl⟩
  · simp only [openers, List.mem_cons, List.not_mem_nil, or_false] at opener
    rcases opener with rfl | rfl | rfl <;>
      simp [step, rules, blockComment, lineComment, quoted, Lexer.sign, after?_cons, openerRegex,
        openers, read]
  · simp only [separators, List.mem_cons, List.not_mem_nil, or_false] at separator
    rcases separator with rfl | rfl | rfl <;>
      simp [step, rules, blockComment, lineComment, quoted, Lexer.sign, after?_cons, openerRegex,
        openers, operatorRegex, operandOperators, read]

/-- A run stops before a character outside its class. -/
theorem takeWhile_append_stop {p : Char → Bool} {c : Char} (stop : p c = false) (t rest : Text) :
    (t ++ c :: rest).takeWhile p = t.takeWhile p ∧
      (t ++ c :: rest).dropWhile p = t.dropWhile p ++ c :: rest := by
  induction t with
  | nil => simp [stop]
  | cons d t ih => cases inside : p d <;> simp [inside, ih]

theorem lex_cons (mode : Mode) (before : Option Char) (c : Char) (r : Text) :
    lex mode before (c :: r) = (step mode before c r).lexemes ++
      lex (step mode before c r).mode (Lexeme.spell (step mode before c r).lexemes).getLast?
        (step mode before c r).rest := by
  rw [lex]

/-- A step that reads one lexeme is followed by the lexemes of the rest. -/
theorem lex_of_step {mode next : Mode} {before : Option Char} {c : Char} {r : Text}
    {kind : TokenKind} {read rest : Text}
    (h : step mode before c r = .single kind next (read, rest)) :
    lex mode before (c :: r) = ⟨kind, read⟩ :: lex next read.getLast? rest := by
  rw [lex_cons, h]
  simp [Step.single, Lexeme.spell]

/-- An opening brace is a token of its own, whatever follows it. -/
theorem exists_lex_brace (before : Option Char) (r : Text) :
    ∃ ls, lex .code before ('{' :: r) = ⟨.bracket, ['{']⟩ :: ls := by
  cases regex : beforeRegex? .bracket ['{'] r with
  | some s =>
    have read : step .code before '{' r = s := by
      simp [step, rules, blockComment, lineComment, quoted, sign, after?_cons, openerRegex, openers,
        regex]
    obtain ⟨cut, -, rfl⟩ := Option.map_eq_some_iff.1 regex
    exact ⟨_, by rw [lex_cons, read]; rfl⟩
  | none =>
    have quiet : Quiet ('{' :: r) :=
      quiet_of_head (by decide) (Option.map_eq_none_iff.1 regex)
    exact ⟨_, lex_of_step (step_bracket (by decide) quiet)⟩

/-! ### Template literals -/

/-- The lexemes `ls` are inert and spell `t`. -/
def InertSpell (ls : List Lexeme) (t : Text) : Prop :=
  (∀ l ∈ ls, l.kind.isInert = true) ∧ Lexeme.spell ls = t

theorem InertSpell.nil : InertSpell [] [] := ⟨nofun, rfl⟩

theorem InertSpell.cons (kind : TokenKind) (inert : kind.isInert = true) (read : Text)
    {ls : List Lexeme} {t : Text} (h : InertSpell ls t) :
    InertSpell (⟨kind, read⟩ :: ls) (read ++ t) := by
  refine ⟨?_, by simp [← h.2, Lexeme.spell]⟩
  intro l member
  rcases List.mem_cons.1 member with rfl | member
  · exact inert
  · exact h.1 l member

theorem InertSpell.append {ls ms : List Lexeme} {t u : Text} (h : InertSpell ls t)
    (k : InertSpell ms u) : InertSpell (ls ++ ms) (t ++ u) := by
  refine ⟨fun l member => ?_, by simp [← h.2, ← k.2, Lexeme.spell]⟩
  rcases List.mem_append.1 member with member | member
  · exact h.1 l member
  · exact k.1 l member

theorem lex_substitution {inside : Text} (h : '}' ∉ inside) :
    ∃ ls, InertSpell ls (inside ++ ['}']) ∧ ∀ before rest,
      lex .interpolation before (inside ++ '}' :: rest) = ls ++ lex .template (some '}') rest := by
  have close (before : Option Char) (rest : Text) : lex .interpolation before ('}' :: rest) =
      [⟨.interpolation, ['}']⟩] ++ lex .template (some '}') rest :=
    lex_of_step (by simp [step, rules, sign, after?_cons])
  cases inside with
  | nil => exact ⟨_, InertSpell.nil.cons .interpolation rfl ['}'], close⟩
  | cons c t =>
    have start : c ≠ '}' := fun same => h (by simp [same])
    have chars : ∀ d ∈ t, (d != '}') = true := by
      intro d member
      simpa using fun same : d = '}' => h (List.mem_cons_of_mem c (same ▸ member))
    have read (before : Option Char) (rest : Text) : step .interpolation before c (t ++ '}' :: rest) =
        .single .interpolation .interpolation (c :: t, '}' :: rest) := by
      simp [step, rules, sign, after?_cons, Ne.symm start, substitution, run, start,
        List.takeWhile_append_of_pos chars, List.dropWhile_append_of_pos chars]
    refine ⟨[⟨.interpolation, c :: t⟩, ⟨.interpolation, ['}']⟩], ?_, fun before rest => ?_⟩
    · exact (InertSpell.nil.cons .interpolation rfl ['}']).cons .interpolation rfl (c :: t)
    · rw [List.cons_append, lex_of_step (read before rest), close]
      rfl

/-- The characters of plain template text. -/
def isTemplateText (c : Char) : Bool := c != '`' && c != '\\' && c != '$'

theorem TemplateBody.dropWhile {t : Text} (h : TemplateBody t) :
    TemplateBody (t.dropWhile isTemplateText) := by
  induction h with
  | nil => exact .nil
  | @plain c t back slash dollar _ ih =>
    have inText : isTemplateText c = true := by simp [isTemplateText, back, slash, dollar]
    rwa [List.dropWhile_cons_of_pos inText]
  | dollar follows inner => exact .dollar follows inner
  | escaped inner => exact .escaped inner
  | substitution free inner => exact .substitution free inner

theorem templateText_eq : templateText = run .template .template isTemplateText isTemplateText := rfl

/-- The lexer reads all plain template text up to the next sign at once. -/
theorem step_templateText {before : Option Char} {c : Char} (h : isTemplateText c = true)
    (t rest : Text) :
    step .template before c (t ++ '`' :: rest) = .single .template .template
      (c :: t.takeWhile isTemplateText, t.dropWhile isTemplateText ++ '`' :: rest) := by
  obtain ⟨taken, left⟩ := takeWhile_append_stop (p := isTemplateText) (c := '`') (by decide) t rest
  have signs : c ≠ '`' ∧ c ≠ '\\' ∧ c ≠ '$' := by simpa [isTemplateText, and_assoc] using h
  simp [step, rules, sign, after?_cons, escape, templateText_eq, run, Ne.symm signs.1, signs.2.1,
    Ne.symm signs.2.2, h, taken, left]

theorem step_templateDollar {before : Option Char} {r : Text} (h : r.head? ≠ some '{') :
    step .template before '$' r = .single .template .template (['$'], r) := by
  cases r with
  | nil => simp [step, rules, sign, after?, escape, templateText, run]
  | cons d r =>
    have other : d ≠ '{' := by simpa using h
    simp [step, rules, sign, after?, escape, templateText, run, Ne.symm other]

theorem step_templateEscape (before : Option Char) (c : Char) (r : Text) :
    step .template before '\\' (c :: r) = .single .escape .template (['\\', c], r) := by
  simp [step, rules, sign, after?, escape]

theorem step_templateOpen (before : Option Char) (r : Text) :
    step .template before '$' ('{' :: r) =
      .single .interpolation .interpolation (['$', '{'], r) := by
  simp [step, rules, sign, after?, escape]

/-- The lexemes of a closed template literal are its own, whatever stands around it. -/
theorem lex_template {body : Text} (h : TemplateBody body) :
    ∃ ls, InertSpell ls (body ++ ['`']) ∧ ∀ before rest,
      lex .template before (body ++ '`' :: rest) = ls ++ lex .code (some '`') rest := by
  generalize size : body.length = n
  induction n using Nat.strongRecOn generalizing body with
  | ind n ih =>
    cases h with
    | nil =>
      refine ⟨[⟨.template, ['`']⟩], InertSpell.nil.cons .template rfl ['`'], fun before rest => ?_⟩
      exact lex_of_step (by simp [step, rules, sign, after?_cons])
    | @plain c t back slash dollar inner =>
      have inText : isTemplateText c = true := by simp [isTemplateText, back, slash, dollar]
      have shorter := (List.dropWhile_sublist (l := t) isTemplateText).length_le
      simp only [List.length_cons] at size
      obtain ⟨ls, spelled, later⟩ := ih _ (by omega) inner.dropWhile rfl
      have whole := spelled.cons .template rfl (c :: t.takeWhile isTemplateText)
      rw [← List.append_assoc, List.cons_append, List.takeWhile_append_dropWhile] at whole
      refine ⟨_, whole, fun before rest => ?_⟩
      rw [List.cons_append, lex_of_step (step_templateText inText t rest), later]
      rfl
    | @dollar t follows inner =>
      have next (rest : Text) : (t ++ '`' :: rest).head? ≠ some '{' := by
        cases t with
        | nil => simp
        | cons d t => simpa using follows
      simp only [List.length_cons] at size
      obtain ⟨ls, spelled, later⟩ := ih _ (by omega) inner rfl
      refine ⟨_, spelled.cons .template rfl ['$'], fun before rest => ?_⟩
      rw [List.cons_append, lex_of_step (step_templateDollar (next rest)), later]
      rfl
    | @escaped c t inner =>
      simp only [List.length_cons] at size
      obtain ⟨ls, spelled, later⟩ := ih _ (by omega) inner rfl
      refine ⟨_, spelled.cons .escape rfl ['\\', c], fun before rest => ?_⟩
      rw [List.cons_append, List.cons_append, lex_of_step (step_templateEscape before c _), later]
      rfl
    | @substitution inside t free inner =>
      simp only [List.cons_append, List.length_cons, List.length_append] at size
      obtain ⟨ls, spelled, later⟩ := ih _ (by omega) inner rfl
      obtain ⟨ms, spelledInside, read⟩ := lex_substitution free
      refine ⟨⟨.interpolation, ['$', '{']⟩ :: (ms ++ ls), ?_, fun before rest => ?_⟩
      · simpa using (spelledInside.append spelled).cons .interpolation rfl ['$', '{']
      · simp only [List.cons_append, List.append_assoc]
        rw [lex_of_step (step_templateOpen before _)]
        simp [read, later]

end Ambient.Lexer
