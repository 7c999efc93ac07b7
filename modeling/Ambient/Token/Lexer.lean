import Ambient.Text.Phrase
import Ambient.Token

/-!
The lexer. The rules of the current mode are tried in order and the first that applies wins, even
where a later one would read more. Every rule reads a non-empty head of the text (`rule_tiles`), so
the lexemes spell it (`spell_lex`).
-/

namespace Ambient.Lexer

/-- Where the lexer stands: in code, in a template literal, or in a substitution of one. -/
inductive Mode
  | code
  | template
  | interpolation
  deriving DecidableEq, Repr

/-- What one rule reads: its lexemes, what is left, and the mode that follows. -/
structure Step where
  lexemes : List Lexeme
  rest : Text
  mode : Mode

/-- A rule sees the character before the text and the text. -/
abbrev Rule := Option Char → Text → Option Step

/-- A step of one lexeme, from the read text and what follows it. -/
def Step.single (kind : TokenKind) (mode : Mode) (cut : Text × Text) : Step :=
  ⟨[⟨kind, cut.1⟩], cut.2, mode⟩

/-- Puts characters back in front of what was read. -/
def onto (front : Text) (cut : Text × Text) : Text × Text := (front ++ cut.1, cut.2)

/-! ### Literals and comments -/

/-- The rest of a block comment whose opening mark is read; an open one takes all. -/
def blockTail : Text → Text × Text
  | [] => ([], [])
  | c :: r =>
    if c = '*' ∧ r.head? = some '/' then (['*', '/'], r.tail) else onto [c] (blockTail r)

/-- The rest of a literal in quotes `q`. A backslash takes the character after it, a line feed
included; a bare line feed leaves the literal unclosed. -/
def quotedTail? (q : Char) : Text → Option (Text × Text)
  | [] => none
  | c :: r =>
    if c = q then some ([c], r)
    else if c = '\\' then
      match r with
      | [] => none
      | d :: r => (quotedTail? q r).map (onto [c, d])
    else if c = '\n' then none
    else (quotedTail? q r).map (onto [c])

/-- The rest of a regular expression literal, up to its closing slash. A slash inside a character
class does not close it. -/
def regexTail? (inClass : Bool) : Text → Option (Text × Text)
  | [] => none
  | c :: r =>
    if c = '\n' then none
    else if c = '\\' then
      match r with
      | [] => none
      | d :: r => if d = '\n' then none else (regexTail? inClass r).map (onto [c, d])
    else if inClass then (regexTail? (c != ']') r).map (onto [c])
    else if c = '/' then some ([c], r)
    else (regexTail? (c == '[') r).map (onto [c])

/-- A regular expression literal with its flags; it never opens like a comment and is not empty. -/
def regex? : Text → Option (Text × Text)
  | '/' :: r =>
    if r.head? = some '*' ∨ r.head? = some '/' then none
    else (regexTail? false r).map fun (body, rest) =>
      ('/' :: body ++ rest.takeWhile Char.isAlpha, rest.dropWhile Char.isAlpha)
  | _ => none

/-- The text `head` of class `kind`, then a regular expression literal after optional blanks. -/
def beforeRegex? (kind : TokenKind) (head r : Text) : Option Step :=
  (regex? (trimLeft r)).map fun (literal, rest) =>
    let gap : Text := r.takeWhile isBlank
    let blanks : List Lexeme := if gap = [] then [] else [⟨.blank, gap⟩]
    ⟨⟨kind, head⟩ :: blanks ++ [⟨.regex, literal⟩], rest, .code⟩

/-! ### Words and signs -/

/-- Operators after which an operand is expected, so that a slash opens a regular expression. -/
def operandOperators : List Text :=
  ["=>", "===", "==", "!==", "!=", "&&", "||", "??", ",", "=", ":", ";", "!", "&", "|", "?"].map
    String.toList

/-- Words after which an operand is expected. -/
def operandWords : List Text := ["return", "typeof", "case"].map String.toList

/-- Operators of several characters; a longer one stands before its own beginning. -/
def longOperators : List Text :=
  ["=>", "===", "==", "!==", "!=", "<=", ">=", "&&", "||", "??", "..."].map String.toList

def shortOperators : Text := ":;,=?|&<>!+-*/%.~^@#".toList

def keywords : List Text :=
  ["export", "import", "declare", "const", "let", "var", "enum", "interface", "type", "function",
    "async", "default", "from", "as", "extends", "keyof", "typeof", "infer", "readonly",
    "is"].map String.toList

/-- No name runs up to this point. -/
def nameFree (before : Option Char) : Bool := !before.any isNameChar

/-! ### Rules -/

/-- Reads a fixed sign. -/
def sign (kind : TokenKind) (next : Mode) (mark : Text) : Rule := fun _ t =>
  (after? mark t).map fun r => .single kind next (mark, r)

/-- Reads a character of `first` and the run of characters of `inside` after it. -/
def run (kind : TokenKind) (next : Mode) (first inside : Char → Bool) : Rule
  | _, c :: r =>
    if first c then some (.single kind next (c :: r.takeWhile inside, r.dropWhile inside)) else none
  | _, [] => none

/-- Reads one character of `first`. -/
def one (kind : TokenKind) (next : Mode) (first : Char → Bool) : Rule :=
  run kind next first fun _ => false

def blockComment : Rule := fun _ t =>
  (after? ['/', '*'] t).map fun r =>
    .single .blockComment .code (onto ['/', '*'] (blockTail r))

def lineComment : Rule := fun _ t =>
  (after? ['/', '/'] t).map fun r =>
    .single .lineComment .code (onto ['/', '/'] (r.takeWhile (· != '\n'), r.dropWhile (· != '\n')))

def quoted (q : Char) (kind : TokenKind) : Rule := fun _ t =>
  (after? [q] t).bind fun r => (quotedTail? q r).map (.single kind .code ∘ onto [q])

def openerRegex : Rule := fun _ t =>
  openers.findSome? fun c => (after? [c] t).bind (beforeRegex? .bracket [c])

def operatorRegex : Rule := fun _ t =>
  operandOperators.findSome? fun mark => (after? mark t).bind (beforeRegex? .operator mark)

def wordRegex : Rule := fun before t =>
  if nameFree before then
    operandWords.findSome? fun word => (after? word t).bind (beforeRegex? .name word)
  else none

def bracket : Rule := one .bracket .code fun c => openers.contains c || closers.contains c

def longOperator : Rule := fun before t =>
  longOperators.findSome? fun mark => sign .operator .code mark before t

def shortOperator : Rule := one .operator .code shortOperators.contains

def keyword : Rule := fun before t =>
  if nameFree before && keywords.contains (t.takeWhile isNameChar) then
    some (.single .keyword .code (t.takeWhile isNameChar, t.dropWhile isNameChar))
  else none

def name : Rule := run .name .code isNameStart isNameChar

def number : Rule := run .number .code isDecimal fun c => isWord c || c == '.'

def blanks : Rule := run .blank .code isBlank isBlank

def other : Rule := one .other .code (· != '\n')

/-- A backslash of a template literal, with whatever it escapes. -/
def escape : Rule
  | _, '\\' :: c :: r => some (.single .escape .template (['\\', c], r))
  | _, _ => none

/-- Template text without a back quote, a backslash or a dollar sign. -/
def templateText : Rule :=
  let plain (c : Char) : Bool := c != '`' && c != '\\' && c != '$'
  run .template .template plain plain

/-- Everything up to the next closing brace belongs to a substitution. -/
def substitution : Rule := run .interpolation .interpolation (· != '}') (· != '}')

/-! ### Steps -/

def rules : Mode → List Rule
  | .code =>
    [blockComment, lineComment, quoted '"' .doubleQuoted, quoted '\'' .singleQuoted,
      sign .template .template ['`'], openerRegex, operatorRegex, wordRegex, bracket, longOperator,
      shortOperator, keyword, name, number, blanks, other]
  | .template =>
    [sign .template .code ['`'], escape, sign .interpolation .interpolation ['$', '{'],
      templateText, sign .template .template ['$']]
  | .interpolation => [sign .interpolation .template ['}'], substitution]

/-- One step on a text that starts with `c`; a character that no rule accepts is stray. -/
def step (mode : Mode) (before : Option Char) (c : Char) (r : Text) : Step :=
  ((rules mode).findSome? fun rule => rule before (c :: r)).getD (.single .stray mode ([c], r))

/-- A step that spells a head of `t`, every lexeme of it non-empty, and at least one. -/
structure Step.Tiles (s : Step) (t : Text) : Prop where
  spell : Lexeme.spell s.lexemes ++ s.rest = t
  some_lexeme : s.lexemes ≠ []
  lexeme_text : ∀ l ∈ s.lexemes, l.text ≠ []

theorem Step.Tiles.rest_lt {s : Step} {t : Text} (h : s.Tiles t) : s.rest.length < t.length := by
  obtain ⟨l, ls, cons⟩ := List.exists_cons_of_ne_nil h.some_lexeme
  have text : l.text ≠ [] := h.lexeme_text l (by simp [cons])
  have count := congrArg List.length h.spell
  have := List.length_pos_iff.2 text
  simp only [cons, Lexeme.spell, List.flatMap_cons, List.length_append] at count
  omega

theorem Step.single_tiles {kind : TokenKind} {mode : Mode} {cut : Text × Text} {t : Text}
    (spell : cut.1 ++ cut.2 = t) (text : cut.1 ≠ []) : (Step.single kind mode cut).Tiles t :=
  ⟨by simpa [Step.single, Lexeme.spell] using spell, by simp [Step.single],
    by simpa [Step.single] using text⟩

theorem blockTail_append (t : Text) : (blockTail t).1 ++ (blockTail t).2 = t := by
  induction t with
  | nil => rfl
  | cons c r ih =>
    rw [blockTail]
    split
    · next close =>
      cases r with
      | nil => simp at close
      | cons d r => simp_all
    · simpa [onto] using ih

theorem append_of_quotedTail? {q : Char} {t : Text} {cut : Text × Text}
    (h : quotedTail? q t = some cut) : cut.1 ++ cut.2 = t := by
  fun_induction quotedTail? q t generalizing cut with
  | case1 | case3 | case5 => cases h
  | case2 => cases h; rfl
  | case4 | case6 =>
    rename_i ih
    obtain ⟨inner, read, rfl⟩ := Option.map_eq_some_iff.1 h
    simp [onto, ih read]

theorem append_of_regexTail? {inClass : Bool} {t : Text} {cut : Text × Text}
    (h : regexTail? inClass t = some cut) : cut.1 ++ cut.2 = t := by
  fun_induction regexTail? inClass t generalizing cut with
  | case1 | case2 | case3 | case4 => cases h
  | case5 | case6 | case8 =>
    rename_i ih
    obtain ⟨inner, read, rfl⟩ := Option.map_eq_some_iff.1 h
    simp [onto, ih read]
  | case7 => cases h; rfl

theorem append_of_regex? {t : Text} {cut : Text × Text} (h : regex? t = some cut) :
    cut.1 ++ cut.2 = t ∧ cut.1 ≠ [] := by
  unfold regex? at h
  split at h
  · split at h
    · cases h
    · obtain ⟨inner, read, rfl⟩ := Option.map_eq_some_iff.1 h
      simp [← append_of_regexTail? read]
  · cases h

theorem beforeRegex?_tiles {kind : TokenKind} {head r : Text} {s : Step} (text : head ≠ [])
    (h : beforeRegex? kind head r = some s) : s.Tiles (head ++ r) := by
  obtain ⟨⟨literal, rest⟩, read, rfl⟩ := Option.map_eq_some_iff.1 h
  obtain ⟨spell, some_text⟩ := append_of_regex? read
  have whole : r.takeWhile isBlank ++ (literal ++ rest) = r := by
    rw [spell, trimLeft, List.takeWhile_append_dropWhile]
  refine ⟨?_, by simp, ?_⟩
  · by_cases gap : r.takeWhile isBlank = []
    · simpa [Lexeme.spell, gap] using whole
    · simpa [Lexeme.spell, gap] using whole
  · intro l member
    by_cases gap : r.takeWhile isBlank = []
    · simp only [gap, ↓reduceIte, List.cons_append, List.nil_append, List.mem_cons,
        List.not_mem_nil, or_false] at member
      rcases member with rfl | rfl <;> assumption
    · simp only [gap, ↓reduceIte, List.cons_append, List.nil_append, List.mem_cons,
        List.not_mem_nil, or_false] at member
      rcases member with rfl | rfl | rfl <;> assumption

theorem sign_tiles {kind : TokenKind} {next : Mode} {mark : Text} (text : mark ≠ [])
    {before : Option Char} {t : Text} {s : Step} (h : sign kind next mark before t = some s) :
    s.Tiles t := by
  obtain ⟨r, spelled, rfl⟩ := Option.map_eq_some_iff.1 h
  rw [after?_eq_some_iff.1 spelled]
  exact Step.single_tiles rfl text

theorem run_eq_some {kind : TokenKind} {next : Mode} {first inside : Char → Bool}
    {before : Option Char} {t : Text} {s : Step}
    (h : run kind next first inside before t = some s) : ∃ c r, t = c :: r ∧ first c = true ∧
      s = .single kind next (c :: r.takeWhile inside, r.dropWhile inside) := by
  cases t with
  | nil => cases h
  | cons c r =>
    rw [run] at h
    split at h <;> cases h
    next start => exact ⟨c, r, rfl, start, rfl⟩

theorem run_tiles {kind : TokenKind} {next : Mode} {first inside : Char → Bool}
    {before : Option Char} {t : Text} {s : Step}
    (h : run kind next first inside before t = some s) : s.Tiles t := by
  obtain ⟨c, r, rfl, -, rfl⟩ := run_eq_some h
  exact Step.single_tiles (by simp) (by simp)

theorem blockComment_tiles {before : Option Char} {t : Text} {s : Step}
    (h : blockComment before t = some s) : s.Tiles t := by
  obtain ⟨r, spelled, rfl⟩ := Option.map_eq_some_iff.1 h
  rw [after?_eq_some_iff.1 spelled]
  exact Step.single_tiles (by simp [onto, blockTail_append]) (by simp [onto])

theorem lineComment_tiles {before : Option Char} {t : Text} {s : Step}
    (h : lineComment before t = some s) : s.Tiles t := by
  obtain ⟨r, spelled, rfl⟩ := Option.map_eq_some_iff.1 h
  rw [after?_eq_some_iff.1 spelled]
  exact Step.single_tiles (by simp [onto]) (by simp [onto])

theorem quoted_tiles {q : Char} {kind : TokenKind} {before : Option Char} {t : Text} {s : Step}
    (h : quoted q kind before t = some s) : s.Tiles t := by
  obtain ⟨r, spelled, read⟩ := Option.bind_eq_some_iff.1 h
  obtain ⟨cut, inner, rfl⟩ := Option.map_eq_some_iff.1 read
  rw [after?_eq_some_iff.1 spelled]
  exact Step.single_tiles (by simp [onto, append_of_quotedTail? inner]) (by simp [onto])

theorem openerRegex_tiles {before : Option Char} {t : Text} {s : Step}
    (h : openerRegex before t = some s) : s.Tiles t := by
  obtain ⟨c, -, found⟩ := List.exists_of_findSome?_eq_some h
  obtain ⟨r, spelled, read⟩ := Option.bind_eq_some_iff.1 found
  rw [after?_eq_some_iff.1 spelled]
  exact beforeRegex?_tiles (by simp) read

theorem operatorRegex_tiles {before : Option Char} {t : Text} {s : Step}
    (h : operatorRegex before t = some s) : s.Tiles t := by
  obtain ⟨mark, member, found⟩ := List.exists_of_findSome?_eq_some h
  obtain ⟨r, spelled, read⟩ := Option.bind_eq_some_iff.1 found
  rw [after?_eq_some_iff.1 spelled]
  exact beforeRegex?_tiles (by rintro rfl; revert member; decide) read

theorem wordRegex_tiles {before : Option Char} {t : Text} {s : Step}
    (h : wordRegex before t = some s) : s.Tiles t := by
  unfold wordRegex at h
  split at h
  · obtain ⟨word, member, found⟩ := List.exists_of_findSome?_eq_some h
    obtain ⟨r, spelled, read⟩ := Option.bind_eq_some_iff.1 found
    rw [after?_eq_some_iff.1 spelled]
    exact beforeRegex?_tiles (by rintro rfl; revert member; decide) read
  · cases h

theorem longOperator_tiles {before : Option Char} {t : Text} {s : Step}
    (h : longOperator before t = some s) : s.Tiles t := by
  obtain ⟨mark, member, found⟩ := List.exists_of_findSome?_eq_some h
  exact sign_tiles (by rintro rfl; revert member; decide) found

theorem keyword_tiles {before : Option Char} {t : Text} {s : Step}
    (h : keyword before t = some s) : s.Tiles t := by
  unfold keyword at h
  split at h
  · next known =>
    cases h
    refine Step.single_tiles List.takeWhile_append_dropWhile fun empty => ?_
    simp only at empty
    rw [empty] at known
    exact absurd known (by simp [keywords])
  · cases h

theorem escape_tiles {before : Option Char} {t : Text} {s : Step} (h : escape before t = some s) :
    s.Tiles t := by
  unfold escape at h
  split at h <;> cases h
  exact Step.single_tiles rfl (by simp)

/-- Every rule reads a non-empty head of the text. -/
theorem rule_tiles {mode : Mode} {rule : Rule} (member : rule ∈ rules mode) {before : Option Char}
    {t : Text} {s : Step} (h : rule before t = some s) : s.Tiles t := by
  cases mode with
  | code =>
    simp only [rules, List.mem_cons, List.not_mem_nil, or_false] at member
    rcases member with rfl | rfl | rfl | rfl | rfl | rfl | rfl | rfl | rfl | rfl | rfl | rfl |
      rfl | rfl | rfl | rfl
    · exact blockComment_tiles h
    · exact lineComment_tiles h
    · exact quoted_tiles h
    · exact quoted_tiles h
    · exact sign_tiles (by simp) h
    · exact openerRegex_tiles h
    · exact operatorRegex_tiles h
    · exact wordRegex_tiles h
    · exact run_tiles h
    · exact longOperator_tiles h
    · exact run_tiles h
    · exact keyword_tiles h
    all_goals exact run_tiles h
  | template =>
    simp only [rules, List.mem_cons, List.not_mem_nil, or_false] at member
    rcases member with rfl | rfl | rfl | rfl | rfl
    · exact sign_tiles (by simp) h
    · exact escape_tiles h
    · exact sign_tiles (by simp) h
    · exact run_tiles h
    · exact sign_tiles (by simp) h
  | interpolation =>
    simp only [rules, List.mem_cons, List.not_mem_nil, or_false] at member
    rcases member with rfl | rfl
    · exact sign_tiles (by simp) h
    · exact run_tiles h

theorem step_tiles (mode : Mode) (before : Option Char) (c : Char) (r : Text) :
    (step mode before c r).Tiles (c :: r) := by
  unfold step
  cases found : (rules mode).findSome? fun rule => rule before (c :: r) with
  | none => exact Step.single_tiles rfl (by simp)
  | some s =>
    obtain ⟨rule, member, applied⟩ := List.exists_of_findSome?_eq_some found
    exact rule_tiles member applied

/-- The lexemes of a text, read from a given mode with a given character before the text. -/
def lex (mode : Mode) (before : Option Char) : Text → List Lexeme
  | [] => []
  | c :: r =>
    let s := step mode before c r
    s.lexemes ++ lex s.mode (Lexeme.spell s.lexemes).getLast? s.rest
termination_by t => t.length
decreasing_by exact (step_tiles mode before c r).rest_lt

theorem spell_lex (mode : Mode) (before : Option Char) (t : Text) :
    Lexeme.spell (lex mode before t) = t := by
  fun_induction lex mode before t with
  | case1 => rfl
  | case2 mode before c r s ih =>
    rw [Lexeme.spell, List.flatMap_append]
    exact (congrArg _ ih).trans (step_tiles mode before c r).spell

end Ambient.Lexer

namespace Ambient

/-- The tokens of a text, with their offsets. -/
def tokens (t : Text) : List Token := Lexeme.place 0 (Lexer.lex .code none t)

end Ambient
