import Ambient.Proofs.Remark
import Ambient.Proofs.Segment

/-!
The literals and comments of a text. A text is cut into pieces: single characters of code, and
closed literals and comments. Where the pieces fit together (`Fits`), the lexer reads exactly these
literals, and the code between them adds none, whatever it is (`literals_spell`).
-/

namespace Ambient

open Lexer

def TokenKind.isLiteral (k : TokenKind) : Bool := k.isString || k.isComment

/-- The literals and comments among the lexemes. -/
def Lexeme.literals (ls : List Lexeme) : List Lexeme := ls.filter fun l => l.kind.isLiteral

theorem Lexeme.literals_append (ls ms : List Lexeme) :
    literals (ls ++ ms) = literals ls ++ literals ms := List.filter_append ls ms

def Token.lexeme (token : Token) : Lexeme := ⟨token.kind, token.text⟩

/-- The literals and comments of a text. -/
def literals (t : Text) : List Lexeme := Lexeme.literals ((tokens t).map Token.lexeme)

theorem Lexeme.map_place (start : Nat) (ls : List Lexeme) : (place start ls).map Token.lexeme = ls := by
  induction ls generalizing start with
  | nil => rfl
  | cons l ls ih => rw [place, List.map_cons, ih]; rfl

/-- A literal or a comment that is closed in itself; a line comment goes up to the end of a line. -/
inductive Enclosed : Text → Prop
  | quoted {q : Char} {body : Text} : q = '"' ∨ q = '\'' → QuotedBody q body →
      Enclosed (q :: (body ++ [q]))
  | template {body : Text} : TemplateBody body → Enclosed ('`' :: (body ++ ['`']))
  | blockComment {body : Text} : ¬ ['*', '/'] <:+: body →
      Enclosed ('/' :: '*' :: (body ++ ['*', '/']))
  | lineComment {body : Text} : '\n' ∉ body → Enclosed ('/' :: '/' :: body)

def isLineComment (t : Text) : Bool := startsWith "//".toList t

inductive Piece
  /-- A character outside literals and comments. -/
  | code (c : Char) (plain : c ∉ literalSigns)
  | literal (t : Text) (closed : Enclosed t)
  | regex (t : Text) (closed : RegexLiteral t)

namespace Piece

def text : Piece → Text
  | code c _ => [c]
  | literal t _ => t
  | regex t _ => t

def isLiteral : Piece → Bool
  | code _ _ => false
  | literal _ _ | regex _ _ => true

/-- What the lexer reads of the piece, code apart. -/
def literals : Piece → List Lexeme
  | code _ _ => []
  | literal t _ => Lexeme.literals (lex .code none t)
  | regex t _ => [⟨.regex, t⟩]

def spell (ps : List Piece) : Text := ps.flatMap text

def allLiterals (ps : List Piece) : List Lexeme := ps.flatMap literals

@[simp] theorem spell_nil : spell [] = [] := rfl

@[simp] theorem spell_cons (p : Piece) (ps : List Piece) : spell (p :: ps) = p.text ++ spell ps :=
  List.flatMap_cons

@[simp] theorem allLiterals_cons (p : Piece) (ps : List Piece) :
    allLiterals (p :: ps) = p.literals ++ allLiterals ps := List.flatMap_cons

theorem head?_enclosed {t : Text} (h : Enclosed t) : ∃ c ∈ literalSigns, t.head? = some c := by
  cases h with
  | quoted quote => rcases quote with rfl | rfl <;> exact ⟨_, by decide, rfl⟩
  | template => exact ⟨'`', by decide, rfl⟩
  | blockComment | lineComment => exact ⟨'/', by decide, rfl⟩

/-- A literal starts with one of the signs that no code holds. -/
theorem head?_of_isLiteral {p : Piece} (h : p.isLiteral = true) :
    ∃ c ∈ literalSigns, p.text.head? = some c := by
  cases p with
  | code => cases h
  | literal t closed => exact head?_enclosed closed
  | regex t closed =>
    obtain ⟨body, flags, rfl, -⟩ := closed
    exact ⟨'/', by decide, rfl⟩

theorem text_ne_nil (p : Piece) : p.text ≠ [] := by
  cases literal : p.isLiteral with
  | true =>
    obtain ⟨c, -, head⟩ := head?_of_isLiteral literal
    intro empty
    rw [empty] at head
    cases head
  | false =>
    cases p with
    | code => simp [text]
    | _ => cases literal

/-- A character at the head that opens no literal is a piece of code. -/
theorem eq_code_of_spell {c : Char} (plain : c ∉ literalSigns) {ps : List Piece} {r : Text}
    (h : spell ps = c :: r) : ∃ qs, ps = code c plain :: qs ∧ spell qs = r := by
  cases ps with
  | nil => cases h
  | cons p ps =>
    cases literal : p.isLiteral with
    | false =>
      cases p with
      | code d _ =>
        obtain ⟨rfl, rest⟩ := List.cons.inj h
        exact ⟨ps, rfl, rest⟩
      | _ => cases literal
    | true =>
      obtain ⟨d, sign, head⟩ := head?_of_isLiteral literal
      have same := congrArg List.head? h
      rw [spell_cons, List.head?_append, head] at same
      obtain rfl := Option.some.inj same
      exact absurd sign plain

/-- A regular expression may follow the sign, after blanks. -/
def isOperandSign (c : Char) : Bool := (openers ++ separators).contains c

/-- The pieces stand where the lexer finds them: a line comment ends its line, a regular expression
stands behind an opening bracket or a separator, which `operand` says is before the pieces, and no
letter behind it counts as a flag. -/
def Fits (operand : Bool) : List Piece → Prop
  | [] => True
  | code c _ :: ps => Fits (if isBlank c then operand else isOperandSign c) ps
  | literal t _ :: ps =>
    (isLineComment t = true → ∀ c ∈ (spell ps).head?, c = '\n') ∧ Fits false ps
  | regex _ _ :: ps => operand = true ∧ (∀ c ∈ (spell ps).head?, c.isAlpha = false) ∧ Fits false ps

instance decidableFits : (operand : Bool) → (ps : List Piece) → Decidable (Fits operand ps)
  | _, [] => .isTrue trivial
  | _, code _ _ :: ps => decidableFits _ ps
  | _, literal _ _ :: ps =>
    have := decidableFits false ps
    inferInstanceAs (Decidable (_ ∧ _))
  | _, regex _ _ :: ps =>
    have := decidableFits false ps
    inferInstanceAs (Decidable (_ ∧ _ ∧ _))

/-! ### Code between literals -/

theorem isOperandSign_of_isDull {c : Char} (h : isDull c = true) : isOperandSign c = false := by
  have known : ∀ c ∈ openers ++ separators, isDull c = false := by decide
  cases sign : isOperandSign c with
  | false => rfl
  | true => rw [known c (by simpa [isOperandSign] using sign)] at h; cases h

theorem notSign_of_isDull {c : Char} (h : isDull c = true) : c ∉ literalSigns := by
  have known : ∀ c ∈ literalSigns, isDull c = false := by decide
  intro sign
  rw [known c sign] at h
  cases h

/-- Behind dull characters the pieces go on as they are. -/
theorem fits_of_dull {w : Text} (dull : ∀ c ∈ w, isDull c = true) {ps : List Piece} {r : Text}
    (fits : Fits false ps) (h : spell ps = w ++ r) :
    ∃ qs, spell qs = r ∧ Fits false qs ∧ allLiterals qs = allLiterals ps := by
  induction w generalizing ps with
  | nil => exact ⟨ps, h, fits, rfl⟩
  | cons c w ih =>
    have first := dull c (by simp)
    obtain ⟨qs, rfl, rest⟩ := eq_code_of_spell (notSign_of_isDull first) h
    have later : Fits false qs := by
      rw [Fits, isOperandSign_of_isDull first, ite_self] at fits
      exact fits
    obtain ⟨last, spelled, fits, same⟩ := ih (fun d member => dull d (by simp [member])) later rest
    exact ⟨last, spelled, fits, same⟩

/-- Where no operand sign is before them, the pieces start with no regular expression. -/
theorem regex?_spell {ps : List Piece} (fits : Fits false ps) : regex? (spell ps) = none := by
  cases ps with
  | nil => rfl
  | cons p ps =>
    cases p with
    | code c plain =>
      refine regex?_of_head? fun slash => plain ?_
      obtain rfl : c = '/' := Option.some.inj slash
      decide
    | literal t closed =>
      cases closed with
      | quoted quote =>
        refine regex?_of_head? fun slash => ?_
        rcases quote with rfl | rfl <;> simp [text] at slash
      | template => exact regex?_of_head? (by simp [text])
      | blockComment | lineComment => simp [text, regex?]
    | regex => cases fits.1

theorem quiet_cons {ps : List Piece} (fits : Fits false ps) (c : Char) : Quiet (c :: spell ps) := by
  have dull : ∀ head ∈ operandHeads, head ≠ [] ∧ ∀ d ∈ head.tail, isDull d = true := by decide
  intro head member r spelled
  obtain ⟨nonempty, tail⟩ := dull head member
  obtain ⟨d, w, rfl⟩ := List.exists_cons_of_ne_nil nonempty
  obtain ⟨qs, rfl, later, -⟩ := fits_of_dull tail fits (List.cons.inj spelled).2
  obtain ⟨last, left, none, -⟩ :=
    fits_of_dull (takeWhile_dull (fun _ => isDull_of_isBlank) (spell qs)) later
      List.takeWhile_append_dropWhile.symm
  rw [trimLeft, ← left, regex?_spell none]

/-- Behind a sign of code stands a regular expression, after blanks, or pieces that start with
none. -/
theorem fits_cases {ps : List Piece} {operand : Bool} (fits : Fits operand ps) : Fits false ps ∨
    operand = true ∧ ∃ gap t qs, (∀ c ∈ gap, isBlank c = true) ∧ RegexLiteral t ∧
      spell ps = gap ++ t ++ spell qs ∧ (∀ c ∈ (spell qs).head?, c.isAlpha = false) ∧
      Fits false qs ∧ allLiterals ps = ⟨.regex, t⟩ :: allLiterals qs := by
  induction ps with
  | nil => exact .inl trivial
  | cons p ps ih =>
    cases p with
    | literal => exact .inl fits
    | regex t closed =>
      exact .inr ⟨fits.1, [], t, ps, by simp, closed, rfl, fits.2.1, fits.2.2, rfl⟩
    | code c plain =>
      cases blank : isBlank c with
      | false => exact .inl (by simpa [Fits, blank] using fits)
      | true =>
        rcases ih (by simpa [Fits, blank] using fits) with none | ⟨sign, gap, t, qs, blanks, found⟩
        · exact .inl (by simpa [Fits, blank] using none)
        · obtain ⟨closed, spelled, flags, later, read⟩ := found
          refine .inr ⟨sign, c :: gap, t, qs, ?_, closed, ?_, flags, later, read⟩
          · simpa [blank] using blanks
          · simp [text, spelled]

theorem isLiteral_of_plain {rule : Rule} (member : rule ∈ plainRules) {before : Option Char}
    {t : Text} {s : Step} (h : rule before t = some s) : Lexeme.literals s.lexemes = [] := by
  have run_literals {kind : TokenKind} {first inside : Char → Bool} (code : kind.isLiteral = false)
      (h : run kind .code first inside before t = some s) : Lexeme.literals s.lexemes = [] := by
    obtain ⟨c, r, -, -, rfl⟩ := run_eq_some h
    simp [Step.single, Lexeme.literals, code]
  simp only [plainRules, List.mem_cons, List.not_mem_nil, or_false] at member
  rcases member with rfl | rfl | rfl | rfl | rfl | rfl | rfl | rfl
  · exact run_literals rfl h
  · obtain ⟨mark, -, found⟩ := List.exists_of_findSome?_eq_some h
    obtain ⟨rest, -, rfl⟩ := Option.map_eq_some_iff.1 found
    rfl
  · exact run_literals rfl h
  · unfold keyword at h
    split at h <;> cases h
    rfl
  all_goals exact run_literals rfl h

/-- On quiet text a step from a character of code reads one lexeme of code, dull but for its first
character. -/
theorem step_code {c : Char} (plain : c ∉ literalSigns) {r : Text} (quiet : Quiet (c :: r))
    (before : Option Char) : ∃ kind w rest, kind.isLiteral = false ∧ r = w ++ rest ∧
      (∀ d ∈ w, isDull d = true) ∧ step .code before c r = .single kind .code (c :: w, rest) := by
  by_cases sign : c ∈ openers ++ closers
  · exact ⟨.bracket, [], r, rfl, rfl, by simp, step_bracket sign quiet⟩
  · have bare : isBare c = true := by
      rw [isBare, List.append_assoc]
      simpa [plain] using sign
    obtain ⟨kind, w, rest, read, spelled, dull, -⟩ :
      ReadsBare c r (step .code before c r) := step_readsBare bare quiet
    refine ⟨kind, w, rest, ?_, spelled, dull, read⟩
    have none : Lexeme.literals (step .code before c r).lexemes = [] := by
      rw [step_of_quiet plain quiet]
      cases found : plainRules.findSome? fun rule => rule before (c :: r) with
      | none => rfl
      | some s =>
        obtain ⟨rule, member, applied⟩ := List.exists_of_findSome?_eq_some found
        exact isLiteral_of_plain member applied
    rw [read] at none
    simpa [Step.single, Lexeme.literals] using none

/-! ### Literals -/

theorem lex_nil (mode : Mode) (before : Option Char) : lex mode before [] = [] := by rw [lex]

/-- Only a line comment can end with a semicolon. -/
theorem isLineComment_of_last {t : Text} (closed : Enclosed t) (last : t.getLast? = some ';') :
    isLineComment t = true := by
  have ending (front : Text) {back : Text} (some_char : back ≠ [])
      (same : (front ++ back).getLast? = some ';') : back.getLast? = some ';' := by
    rwa [List.getLast?_append_of_ne_nil _ some_char] at same
  cases closed with
  | lineComment => rfl
  | @quoted q body quote =>
    obtain rfl : q = ';' := Option.some.inj (ending (q :: body) (by simp) last)
    simp at quote
  | @template body => exact absurd (ending ('`' :: body) (by simp) last) (by decide)
  | @blockComment body => exact absurd (ending ('/' :: '*' :: body) (by simp) last) (by decide)

theorem regexLiteral_last {t : Text} (closed : RegexLiteral t) : t.getLast? ≠ some ';' := by
  obtain ⟨body, flags, rfl, -, -, -, letters⟩ := closed
  intro last
  rw [List.getLast?_append_of_ne_nil _ (by simp)] at last
  rcases List.mem_cons.1 (List.mem_of_getLast? last) with slash | flag
  · exact absurd slash (by decide)
  · exact absurd (letters ';' flag) (by decide)

/-- A closed literal is read alike wherever it stands. -/
theorem lex_enclosed {t : Text} (h : Enclosed t) {rest : Text}
    (ends : isLineComment t = true → ∀ c ∈ rest.head?, c = '\n') (before : Option Char) :
    lex .code before (t ++ rest) = lex .code none t ++ lex .code t.getLast? rest := by
  cases h with
  | @quoted q body quote inside =>
    obtain ⟨kind, known⟩ : ∃ kind : TokenKind,
        q = '"' ∧ kind = .doubleQuoted ∨ q = '\'' ∧ kind = .singleQuoted := by
      rcases quote with rfl | rfl
      · exact ⟨.doubleQuoted, .inl ⟨rfl, rfl⟩⟩
      · exact ⟨.singleQuoted, .inr ⟨rfl, rfl⟩⟩
    have whole : q :: (body ++ [q]) ++ rest = q :: (body ++ q :: rest) := by simp
    rw [whole, lex_of_step (step_quoted known inside rest), lex_of_step (step_quoted known inside []),
      lex_nil]
    rfl
  | @template body inside =>
    obtain ⟨ls, -, lexed⟩ := lex_template inside
    have whole : '`' :: (body ++ ['`']) ++ rest = '`' :: (body ++ '`' :: rest) := by simp
    have last : ('`' :: (body ++ ['`'])).getLast? = some '`' := List.getLast?_concat (l := '`' :: body)
    rw [whole, lex_of_step (step_backQuote before _), lex_of_step (step_backQuote none _), lexed,
      lexed, lex_nil, last]
    simp
  | @blockComment body inside =>
    have whole : '/' :: '*' :: (body ++ ['*', '/']) ++ rest =
        '/' :: '*' :: (body ++ '*' :: '/' :: rest) := by simp
    rw [whole, lex_of_step (step_blockComment inside rest), lex_of_step (step_blockComment inside []),
      lex_nil]
    rfl
  | @lineComment body inside =>
    have alone (before : Option Char) := lex_of_step (step_openLine inside before)
    cases rest with
    | nil => rw [List.append_nil, alone, alone, lex_nil]; rfl
    | cons d rest =>
      obtain rfl := ends rfl d rfl
      rw [List.cons_append, List.cons_append, lex_of_step (step_lineComment inside rest), alone, lex_nil]
      rfl

/-- A sign is read together with the regular expression behind it. -/
theorem lex_operand {c : Char} (operand : isOperandSign c = true) {gap t rest : Text}
    (blank : ∀ c ∈ gap, isBlank c = true) (closed : RegexLiteral t)
    (flags : ∀ c ∈ rest.head?, c.isAlpha = false) (before : Option Char) :
    ∃ ls last, Lexeme.literals ls = [⟨.regex, t⟩] ∧
      lex .code before (c :: (gap ++ t ++ rest)) = ls ++ lex .code last rest := by
  obtain ⟨kind, known, code⟩ : ∃ kind : TokenKind,
      (c ∈ openers ∧ kind = .bracket ∨ c ∈ separators ∧ kind = .operator) ∧
        kind.isLiteral = false := by
    rcases List.mem_append.1 (by simpa [isOperandSign] using operand) with opener | separator
    · exact ⟨.bracket, .inl ⟨opener, rfl⟩, rfl⟩
    · exact ⟨.operator, .inr ⟨separator, rfl⟩, rfl⟩
  have noFlags : rest.takeWhile Char.isAlpha = [] ∧ rest.dropWhile Char.isAlpha = rest :=
    span_of_stop (w := []) (by simp) flags
  have read : step .code before c (gap ++ t ++ rest) = _ := step_regex known blank closed rest
  rw [noFlags.1, noFlags.2, List.append_nil] at read
  refine ⟨_, _, ?_, by rw [lex_cons, read]⟩
  have regex : TokenKind.regex.isLiteral = true := rfl
  have gapKind : TokenKind.blank.isLiteral = false := rfl
  by_cases empty : gap = [] <;> simp [Lexeme.literals, empty, code, regex, gapKind]

/-- The lexer reads the literals of the pieces and no others. -/
theorem literals_lex {ps : List Piece} (fits : Fits false ps) (before : Option Char) :
    Lexeme.literals (lex .code before (spell ps)) = allLiterals ps := by
  generalize size : (spell ps).length = n
  induction n using Nat.strongRecOn generalizing ps before with
  | ind n ih =>
    cases ps with
    | nil => rw [spell_nil, lex_nil]; rfl
    | cons p ps =>
      cases p with
      | regex => cases fits.1
      | literal t closed =>
        have shorter := List.length_pos_iff.2 (text_ne_nil (literal t closed))
        rw [spell_cons, List.length_append] at size
        have later := ih _ (by omega) fits.2 t.getLast? rfl
        rw [spell_cons, text, lex_enclosed closed fits.1, Lexeme.literals_append, later]
        rfl
      | code c plain =>
        have whole : spell (code c plain :: ps) = c :: spell ps := rfl
        rw [whole, List.length_cons] at size
        rw [whole]
        have behind : Fits (isOperandSign c) ps ∨ Fits false ps := by
          rw [Fits] at fits
          split at fits
          · exact .inr fits
          · exact .inl fits
        obtain quiet | ⟨operand, gap, t, qs, blank, closed, spelled, flags, later, same⟩ :=
          behind.elim fits_cases .inl
        · obtain ⟨kind, w, rest, notLiteral, spelled, dull, read⟩ :=
            step_code plain (quiet_cons quiet c) before
          obtain ⟨qs, rfl, later, same⟩ := fits_of_dull dull quiet spelled
          rw [spelled, List.length_append] at size
          have next := ih _ (by omega) later (c :: w).getLast? rfl
          rw [lex_of_step read, Lexeme.literals, List.filter_cons_of_neg (by simp [notLiteral]),
            ← Lexeme.literals, next, same]
          rfl
        · rw [spelled, List.length_append] at size
          obtain ⟨ls, last, here, lexed⟩ := lex_operand operand blank closed flags before
          rw [spelled, lexed, Lexeme.literals_append, here, ih _ (by omega) later last rfl,
            allLiterals_cons, same]
          rfl

/-- **The literals of a text are those of its pieces.** -/
theorem literals_spell {ps : List Piece} (fits : Fits false ps) :
    Ambient.literals (spell ps) = allLiterals ps := by
  rw [Ambient.literals, tokens, Lexeme.map_place, literals_lex fits]

end Piece

end Ambient
