import Ambient.Proofs.Segment
import Mathlib.Data.List.Chain

/-!
Texts written atom by atom. An atom is a word, a quoted literal, a bracket, a sign or a gap; an
opening brace takes the gap after it, so that it is never followed by a closing one. Where each atom
may follow the one before it (`Follows`), the lexer gives back exactly the atoms (`lex_spell`).
-/

namespace Ambient

open Lexer

theorem isNameChar_of_isNameStart {c : Char} (h : isNameStart c = true) : isNameChar c = true := by
  simp only [isNameStart, Bool.or_eq_true, beq_iff_eq] at h
  rcases h with (letter | rfl) | rfl
  · have known : isAlphanumeric c = true :=
      isAlphanumeric_of_isAlphanum (by rw [Char.isAlphanum, letter, Bool.true_or])
    simp [isNameChar, isWord, known]
  · decide
  · decide

theorem Lexeme.place_append (start : Nat) (ls ms : List Lexeme) :
    Lexeme.place start (ls ++ ms) =
      Lexeme.place start ls ++ Lexeme.place (start + (Lexeme.spell ls).length) ms := by
  induction ls generalizing start with
  | nil => rfl
  | cons l ls ih => simp [Lexeme.place, ih, Lexeme.spell, Nat.add_assoc]

/-- Placed tokens start within the text they are placed on. -/
theorem Lexeme.start_of_mem_place {start : Nat} {ls : List Lexeme} {t : Token}
    (h : t ∈ Lexeme.place start ls) :
    start ≤ t.start ∧ t.start ≤ start + (Lexeme.spell ls).length := by
  induction ls generalizing start with
  | nil => cases h
  | cons l ls ih =>
    rw [Lexeme.place] at h
    rcases List.mem_cons.1 h with rfl | later
    · exact ⟨Nat.le_refl _, Nat.le_add_right _ _⟩
    · have bounds := ih later
      rw [spell_cons, List.length_append]
      omega

theorem getLast?_cons_of_mem {α : Type} {a b : α} {as : List α} (h : b ∈ as.getLast?) :
    b ∈ (a :: as).getLast? := by
  rw [List.getLast?_cons, show as.getLast? = some b from h]
  rfl

/-- An identifier or a keyword. -/
structure Word where
  first : Char
  more : Text
  start : isNameStart first = true
  chars : ∀ c ∈ more, isNameChar c = true

namespace Word

def text (w : Word) : Text := w.first :: w.more

def kind (w : Word) : TokenKind := if keywords.contains w.text then .keyword else .name

theorem kind_eq (w : Word) : w.kind = .keyword ∨ w.kind = .name := by
  unfold kind
  split
  · exact .inl rfl
  · exact .inr rfl

theorem all_chars (w : Word) : ∀ c ∈ w.text, isNameChar c = true := by
  intro c member
  rcases List.mem_cons.1 member with rfl | member
  · exact isNameChar_of_isNameStart w.start
  · exact w.chars c member

theorem text_ne_sign (w : Word) {c : Char} (sign : isNameStart c = false) : w.text ≠ [c] := by
  intro same
  have start := w.start
  rw [(List.cons.inj same).1, sign] at start
  cases start

/-! The words of declarations. -/

def importWord : Word := ⟨'i', "mport".toList, by decide, by decide⟩

def fromWord : Word := ⟨'f', "rom".toList, by decide, by decide⟩

def asWord : Word := ⟨'a', "s".toList, by decide, by decide⟩

def exportWord : Word := ⟨'e', "xport".toList, by decide, by decide⟩

def declareWord : Word := ⟨'d', "eclare".toList, by decide, by decide⟩

def constWord : Word := ⟨'c', "onst".toList, by decide, by decide⟩

def asyncWord : Word := ⟨'a', "sync".toList, by decide, by decide⟩

def functionWord : Word := ⟨'f', "unction".toList, by decide, by decide⟩

def typeWord : Word := ⟨'t', "ype".toList, by decide, by decide⟩

def interfaceWord : Word := ⟨'i', "nterface".toList, by decide, by decide⟩

def defaultWord : Word := ⟨'d', "efault".toList, by decide, by decide⟩

def keyofWord : Word := ⟨'k', "eyof".toList, by decide, by decide⟩

def typeofWord : Word := ⟨'t', "ypeof".toList, by decide, by decide⟩

def extendsWord : Word := ⟨'e', "xtends".toList, by decide, by decide⟩

end Word

/-- A literal in quotes, without escapes. -/
structure Quotation where
  mark : Char
  body : Text
  quote : mark = '"' ∨ mark = '\''
  inside : ∀ c ∈ body, c ≠ mark ∧ c ≠ '\\' ∧ c ≠ '\n'

namespace Quotation

def text (q : Quotation) : Text := q.mark :: q.body ++ [q.mark]

def kind (q : Quotation) : TokenKind := if q.mark = '"' then .doubleQuoted else .singleQuoted

theorem quotedBody (q : Quotation) : QuotedBody q.mark q.body := by
  obtain ⟨mark, body, quote, inside⟩ := q
  induction body with
  | nil => exact .nil
  | cons c t ih =>
    obtain ⟨notMark, notBackslash, notFeed⟩ := inside c (by simp)
    exact .plain notMark notBackslash notFeed (ih fun d member => inside d (by simp [member]))

end Quotation

/-- Brackets other than an opening brace. -/
inductive Bracket
  | openParen
  | closeParen
  | openSquare
  | closeSquare
  | closeBrace
  deriving DecidableEq, Repr

def Bracket.char : Bracket → Char
  | openParen => '('
  | closeParen => ')'
  | openSquare => '['
  | closeSquare => ']'
  | closeBrace => '}'

inductive Sign
  | colon
  | comma
  | semicolon
  | assign
  | bar
  | ampersand
  | less
  | greater
  | arrow
  | star
  deriving DecidableEq, Repr

def Sign.text : Sign → Text
  | colon => [':']
  | comma => [',']
  | semicolon => [';']
  | assign => ['=']
  | bar => ['|']
  | ampersand => ['&']
  | less => ['<']
  | greater => ['>']
  | arrow => ['=', '>']
  | star => ['*']

inductive Gap
  | space
  | feed
  /-- A line feed and the indentation of a member. -/
  | indent
  deriving DecidableEq, Repr

def Gap.text : Gap → Text
  | space => [' ']
  | feed => ['\n']
  | indent => ['\n', ' ', ' ']

inductive Atom
  | word (w : Word)
  | literal (q : Quotation)
  | bracket (b : Bracket)
  | sign (s : Sign)
  | gap (g : Gap)
  /-- An opening brace with the gap after it, or at the end of a text. -/
  | brace (g : Option Gap)
  /-- An opening brace and the closing one right after it. -/
  | braces

namespace Atom

def lexemes : Atom → List Lexeme
  | word w => [⟨w.kind, w.text⟩]
  | literal q => [⟨q.kind, q.text⟩]
  | bracket b => [⟨.bracket, [b.char]⟩]
  | sign s => [⟨.operator, s.text⟩]
  | gap g => [⟨.blank, g.text⟩]
  | brace none => [⟨.bracket, ['{']⟩]
  | brace (some g) => [⟨.bracket, ['{']⟩, ⟨.blank, g.text⟩]
  | braces => [⟨.bracket, ['{']⟩, ⟨.bracket, ['}']⟩]

def text (a : Atom) : Text := Lexeme.spell a.lexemes

/-- The second atom may stand right after the first: the lexer keeps them apart, and neither a gap
nor an opening brace stands before a semicolon, nor a semicolon before a closing brace. -/
def Follows : Atom → Atom → Bool
  | word _, word _ => false
  | gap _, gap _ => false
  | gap _, sign .semicolon => false
  | sign .greater, sign s => s != .assign && s != .arrow
  | sign _, sign _ => false
  | sign .semicolon, bracket .closeBrace => false
  | brace (some _), word _ => true
  | brace _, _ => false
  | _, _ => true

/-- The text of a run of atoms. -/
def spell (as : List Atom) : Text := as.flatMap text

/-- Every atom may stand where it stands. -/
abbrev Sound (as : List Atom) : Prop := as.IsChain (Follows · · = true)

/-- `Sound`, to be computed where the atoms are known. -/
def isSound : List Atom → Bool
  | a :: b :: as => Follows a b && isSound (b :: as)
  | _ => true

theorem sound_of_isSound {as : List Atom} (h : isSound as = true) : Sound as := by
  induction as with
  | nil => exact .nil
  | cons a as ih =>
    cases as with
    | nil => exact .singleton a
    | cons b as =>
      obtain ⟨follows, rest⟩ := Bool.and_eq_true_iff.1 h
      exact List.isChain_cons_cons.2 ⟨follows, ih rest⟩

theorem spell_eq (as : List Atom) : spell as = Lexeme.spell (as.flatMap lexemes) := by
  rw [Lexeme.spell, List.flatMap_assoc]
  rfl

@[simp] theorem spell_nil : spell [] = [] := rfl

@[simp] theorem spell_cons (a : Atom) (as : List Atom) : spell (a :: as) = a.text ++ spell as :=
  List.flatMap_cons

@[simp] theorem spell_append (as bs : List Atom) : spell (as ++ bs) = spell as ++ spell bs :=
  List.flatMap_append

end Atom

/-! ### Steps of the lexer -/

theorem isBare_of_isDull {c : Char} (h : isDull c = true) : isBare c = true := by
  simp only [isDull, List.contains_eq_mem, Bool.not_eq_true', decide_eq_false_iff_not,
    List.mem_append, not_or] at h
  simp only [isBare, List.contains_eq_mem, Bool.not_eq_true', decide_eq_false_iff_not,
    List.mem_append, not_or]
  exact ⟨⟨h.1, h.2.1.1⟩, h.2.1.2⟩

section
variable {before : Option Char} {rest : Text}

theorem span_of_stop {α : Type} {p : α → Bool} {w rest : List α} (inside : ∀ c ∈ w, p c = true)
    (stop : ∀ c ∈ rest.head?, p c = false) :
    (w ++ rest).takeWhile p = w ∧ (w ++ rest).dropWhile p = rest := by
  rw [List.takeWhile_append_of_pos inside, List.dropWhile_append_of_pos inside]
  cases rest with
  | nil => simp
  | cons c r =>
    have outside : p c = false := stop c (by simp)
    simp [outside]

/-- The characters that start a sign of the lexer. -/
def signStarts : List Char := openers ++ closers ++ longOperators.filterMap List.head? ++ shortOperators

/-- A character that starts no sign is left to the rules for words and gaps. -/
theorem step_of_plain {c : Char} (plain : c ∉ literalSigns ++ signStarts) (quiet : Quiet (c :: rest)) :
    step .code before c rest =
      ([keyword, name, number, blanks, other].findSome? fun rule => rule before (c :: rest)).getD
        (.single .stray .code ([c], rest)) := by
  simp only [signStarts, List.mem_append, not_or] at plain
  obtain ⟨literal, ⟨⟨opener, closer⟩, long⟩, short⟩ := plain
  have noBracket : bracket before (c :: rest) = none := by
    rw [bracket, one_cons, if_neg (by simp [opener, closer])]
  have noLong : longOperator before (c :: rest) = none := by
    refine List.findSome?_eq_none_iff.2 fun mark member => ?_
    cases mark with
    | nil => exact absurd member (by decide)
    | cons d ds =>
      have other : d ≠ c := by
        rintro rfl
        exact long (List.mem_filterMap.2 ⟨d :: ds, member, rfl⟩)
      simp [sign, after?_cons, other]
  have noShort : shortOperator before (c :: rest) = none := by
    rw [shortOperator, one_cons, if_neg (by simpa using short)]
  rw [step_of_quiet literal quiet]
  simp only [plainRules, List.findSome?_cons, noBracket, noLong, noShort]

theorem step_word {w : Word} (free : nameFree before = true)
    (stop : ∀ c ∈ rest.head?, isNameChar c = false) (quiet : Quiet (w.text ++ rest)) :
    step .code before w.first (w.more ++ rest) = .single w.kind .code (w.text, rest) := by
  have known : ∀ d ∈ literalSigns ++ signStarts, isNameStart d = false := by decide
  have plain : w.first ∉ literalSigns ++ signStarts := fun member => by
    simpa [w.start] using known w.first member
  obtain ⟨taken, left⟩ := span_of_stop w.all_chars stop
  obtain ⟨more, last⟩ := span_of_stop w.chars stop
  rw [show step .code before w.first (w.more ++ rest) = _ from step_of_plain plain quiet]
  by_cases isKeyword : w.text ∈ keywords
  · have read : keyword before (w.first :: (w.more ++ rest)) =
        some (.single .keyword .code (w.text, rest)) := by
      rw [keyword, show w.first :: (w.more ++ rest) = w.text ++ rest from rfl, taken, left, free,
        if_pos (by simpa using isKeyword)]
    rw [List.findSome?_cons, read, Word.kind, if_pos (by simpa using isKeyword)]
    rfl
  · have skip : keyword before (w.first :: (w.more ++ rest)) = none := by
      rw [keyword, show w.first :: (w.more ++ rest) = w.text ++ rest from rfl, taken,
        if_neg (by simp [isKeyword])]
    have read : name before (w.first :: (w.more ++ rest)) =
        some (.single .name .code (w.text, rest)) := by
      rw [name, run, if_pos w.start, more, last]
      rfl
    rw [List.findSome?_cons, skip, List.findSome?_cons, read, Word.kind,
      if_neg (by simpa using isKeyword)]
    rfl

theorem step_gap (before : Option Char) {g : Gap} (stop : ∀ c ∈ rest.head?, isBlank c = false)
    (quiet : Quiet (g.text ++ rest)) :
    ∃ c r, g.text = c :: r ∧
      step .code before c (r ++ rest) = .single .blank .code (g.text, rest) := by
  have blank : ∀ c ∈ g.text, isBlank c = true := by cases g <;> decide
  obtain ⟨c, r, spelled⟩ : ∃ c r, g.text = c :: r := by cases g <;> exact ⟨_, _, rfl⟩
  have plain : c ∉ literalSigns ++ signStarts := by
    cases g <;> cases spelled <;> decide
  have word : isNameChar c = false ∧ isNameStart c = false ∧ isDecimal c = false := by
    cases g <;> cases spelled <;> decide
  have more : ∀ d ∈ r, isBlank d = true := fun d member => blank d (by simp [spelled, member])
  obtain ⟨taken, left⟩ := span_of_stop more stop
  refine ⟨c, r, spelled, ?_⟩
  rw [spelled] at quiet blank
  rw [show step .code before c (r ++ rest) = _ from step_of_plain plain quiet]
  simp [keyword, keywords, name, number, blanks, run, word, blank, taken, left,
    spelled]

/-- The sign ends before `r`: no longer operator starts with it there. -/
def Sign.endsBefore (s : Sign) (r : Text) : Bool :=
  longOperators.all fun mark => mark == s.text || !startsWith mark (s.text ++ r)

theorem after?_eq_none_iff {word t : Text} : after? word t = none ↔ startsWith word t = false := by
  induction word generalizing t with
  | nil => simp [after?, startsWith]
  | cons w ws ih =>
    cases t with
    | nil => simp [after?, startsWith]
    | cons c r =>
      by_cases same : w = c
      · simpa [after?, startsWith, same] using ih (t := r)
      · simp [after?, startsWith, List.isPrefixOf, same]

theorem step_sign (before : Option Char) {s : Sign} (stop : s.endsBefore rest = true)
    (quiet : Quiet (s.text ++ rest)) :
    ∃ c r, s.text = c :: r ∧
      step .code before c (r ++ rest) = .single .operator .code (s.text, rest) := by
  obtain ⟨c, r, spelled⟩ : ∃ c r, s.text = c :: r := by cases s <;> exact ⟨_, _, rfl⟩
  have literal : c ∉ literalSigns := by cases s <;> cases spelled <;> decide
  have noBracket : bracket before (c :: (r ++ rest)) = none := by
    rw [bracket, one_cons]
    cases s <;> cases spelled <;> rfl
  have long (mark : Text) (member : mark ∈ longOperators) (other : mark ≠ s.text) :
      after? mark (s.text ++ rest) = none := by
    have kept := List.all_eq_true.1 stop mark member
    simp only [Bool.or_eq_true, beq_iff_eq, other, false_or, Bool.not_eq_true'] at kept
    exact after?_eq_none_iff.2 kept
  refine ⟨c, r, spelled, ?_⟩
  rw [spelled] at quiet
  rw [step_of_quiet literal (r := r ++ rest) quiet, plainRules, List.findSome?_cons, noBracket]
  by_cases isArrow : s = .arrow
  · subst isArrow
    cases spelled
    rfl
  · have noLong : longOperator before (c :: (r ++ rest)) = none := by
      refine List.findSome?_eq_none_iff.2 fun mark member => ?_
      have other : mark ≠ s.text := by
        have known : ∀ mark ∈ longOperators, mark ≠ s.text := by
          cases s <;> first | exact absurd rfl isArrow | decide
        exact known mark member
      rw [sign, show c :: (r ++ rest) = s.text ++ rest by rw [spelled]; rfl, long mark member other]
      rfl
    have short : r = [] ∧ shortOperators.contains c = true := by
      cases s <;> cases spelled <;> first | exact absurd rfl isArrow | exact ⟨rfl, by decide⟩
    obtain ⟨rfl, isShort⟩ := short
    rw [List.findSome?_cons, noLong, List.findSome?_cons, shortOperator, one_cons, if_pos isShort]
    simp [spelled]

theorem Sign.endsBefore_of_head {s : Sign} (h : ∀ c ∈ rest.head?, c ≠ '=' ∧
    (s ≠ .greater → c ≠ '>' ∧ c ≠ '|' ∧ c ≠ '&')) : s.endsBefore rest = true := by
  cases rest with
  | nil => cases s <;> decide
  | cons c r =>
    obtain ⟨equals, others⟩ := h c rfl
    have noEquals : ('=' == c) = false := by simpa using Ne.symm equals
    cases s with
    | greater => simp [endsBefore, longOperators, startsWith, text, List.isPrefixOf, noEquals]
    | colon | comma | semicolon | arrow | star =>
      simp [endsBefore, longOperators, startsWith, text, List.isPrefixOf]
    | assign | bar | ampersand | less =>
      obtain ⟨greater, bar, ampersand⟩ := others (by decide)
      simp [endsBefore, longOperators, startsWith, text, List.isPrefixOf, noEquals,
        Ne.symm greater, Ne.symm bar, Ne.symm ampersand]

end

theorem bounds_of_isAlphanum {c : Char} (h : c.isAlphanum = true) : 48 ≤ c.toNat ∧ c.toNat ≤ 122 := by
  have classes : (decide (c.val ≥ 'A'.val ∧ c.val ≤ 'Z'.val) ||
      (c.val ≥ 'a'.val && c.val ≤ 'z'.val) || (c.val ≥ '0'.val && c.val ≤ '9'.val)) = true := h
  simp only [Bool.or_eq_true, Bool.and_eq_true, decide_eq_true_eq, UInt32.le_iff_toNat_le,
    ge_iff_le] at classes
  have : c.toNat = c.val.toNat := rfl
  have : 'A'.val.toNat = 65 ∧ 'Z'.val.toNat = 90 := ⟨rfl, rfl⟩
  have : 'a'.val.toNat = 97 ∧ 'z'.val.toNat = 122 := ⟨rfl, rfl⟩
  have : '0'.val.toNat = 48 ∧ '9'.val.toNat = 57 := ⟨rfl, rfl⟩
  omega

/-- No blank is a name character: their tables have no code point in common. -/
theorem isBlank_of_isNameChar {c : Char} (h : isNameChar c = true) : isBlank c = false := by
  have apart : ∀ b ∈ blankRanges, (b.2 < 36 ∨ 122 < b.1) ∧
      wordRanges.all fun w => w.2 < b.1 || b.2 < w.1 := by decide +kernel
  refine List.any_eq_false.2 fun b range within => ?_
  obtain ⟨ascii, ranges⟩ := apart b range
  simp only [Bool.and_eq_true, decide_eq_true_eq] at within
  simp only [isNameChar, isWord, Bool.or_eq_true, beq_iff_eq] at h
  rcases h with (letter | rfl) | rfl
  · unfold isAlphanumeric at letter
    split at letter
    · have := bounds_of_isAlphanum letter
      omega
    · obtain ⟨w, member, inside⟩ := List.any_eq_true.1 letter
      have disjoint := List.all_eq_true.1 ranges w member
      simp only [Bool.and_eq_true, Bool.or_eq_true, decide_eq_true_eq] at inside disjoint
      omega
  · have : '_'.toNat = 95 := rfl
    omega
  · have : '$'.toNat = 36 := rfl
    omega

theorem isBlank_of_isNameStart {c : Char} (h : isNameStart c = true) : isBlank c = false :=
  isBlank_of_isNameChar (isNameChar_of_isNameStart h)

namespace Atom

@[simp] theorem text_word (w : Word) : (word w).text = w.text := List.append_nil w.text

@[simp] theorem text_literal (q : Quotation) : (literal q).text = q.text := List.append_nil q.text

@[simp] theorem text_bracket (b : Bracket) : (bracket b).text = [b.char] := rfl

@[simp] theorem text_sign (s : Sign) : (sign s).text = s.text := List.append_nil s.text

@[simp] theorem text_gap (g : Gap) : (gap g).text = g.text := List.append_nil g.text

@[simp] theorem text_brace (g : Gap) : (brace (some g)).text = '{' :: g.text :=
  congrArg ('{' :: ·) (List.append_nil g.text)

@[simp] theorem text_bare_brace : (brace none).text = ['{'] := rfl

@[simp] theorem text_braces : braces.text = ['{', '}'] := rfl

def first : Atom → Char
  | word w => w.first
  | literal q => q.mark
  | bracket b => b.char
  | sign s => s.text.headD ' '
  | gap g => g.text.headD ' '
  | brace _ | braces => '{'

def isWord : Atom → Bool
  | word _ => true
  | _ => false

def isGap : Atom → Bool
  | gap _ => true
  | _ => false

def isSign : Atom → Bool
  | sign _ => true
  | _ => false

theorem exists_text (a : Atom) : ∃ r, a.text = a.first :: r := by
  cases a with
  | word w => exact ⟨w.more, text_word w⟩
  | literal q => exact ⟨q.body ++ [q.mark], text_literal q⟩
  | bracket b => exact ⟨[], rfl⟩
  | sign s => cases s <;> exact ⟨_, rfl⟩
  | gap g => cases g <;> exact ⟨_, rfl⟩
  | brace g => cases g <;> exact ⟨_, rfl⟩
  | braces => exact ⟨_, rfl⟩

/-- The first character shows whether an atom is a word or a gap. -/
theorem first_class (a : Atom) : isNameChar a.first = a.isWord ∧ isBlank a.first = a.isGap ∧
    (a.isSign = false → a.first ∉ ['=', '>', '|', '&']) := by
  cases a with
  | word w =>
    refine ⟨isNameChar_of_isNameStart w.start, isBlank_of_isNameStart w.start, fun _ member => ?_⟩
    have known : ∀ c ∈ ['=', '>', '|', '&'], isNameStart c = false := by decide
    exact absurd w.start (by rw [known w.first member]; decide)
  | literal q =>
    simp only [first, isWord, isGap, isSign]
    rcases q.quote with mark | mark <;> rw [mark] <;> decide
  | bracket b => cases b <;> decide
  | sign s => cases s <;> decide
  | gap g => cases g <;> decide
  | brace g =>
    simp only [first, isWord, isGap, isSign]
    decide
  | braces => decide

/-- What an atom that is no word may end with. -/
def lastSigns : Atom → List Char
  | word _ => []
  | literal _ => ['"', '\'']
  | bracket b => [b.char]
  | sign s => s.text.getLast?.toList
  | gap g | brace (some g) => g.text.getLast?.toList
  | brace none => ['{']
  | braces => ['}']

theorem last_class {a : Atom} {c : Char} (last : c ∈ a.text.getLast?) :
    a.isWord = true ∧ isNameChar c = true ∨ c ∈ a.lastSigns := by
  cases a with
  | word w =>
    rw [text_word] at last
    exact .inl ⟨rfl, w.all_chars c (List.mem_of_getLast? last)⟩
  | literal q =>
    rw [text_literal, Quotation.text, List.getLast?_concat] at last
    obtain rfl := Option.some.inj last
    rcases q.quote with mark | mark <;> simp [lastSigns, mark]
  | sign s =>
    rw [text_sign] at last
    exact .inr (Option.mem_toList.2 last)
  | gap g =>
    rw [text_gap] at last
    exact .inr (Option.mem_toList.2 last)
  | brace g =>
    cases g with
    | none => exact .inr (Option.mem_toList.2 last)
    | some g =>
      rw [text_brace] at last
      cases g <;> exact .inr (Option.mem_toList.2 last)
  | bracket b | braces => exact .inr (Option.mem_toList.2 last)

/-- The last character of an atom that is no word does not run on into a word. -/
theorem nameFree_of_not_isWord {a : Atom} (h : a.isWord = false) :
    nameFree a.text.getLast? = true := by
  have known : ∀ c ∈ a.lastSigns, nameFree (some c) = true := by
    cases a with
    | word w => cases h
    | literal q =>
      simp only [lastSigns]
      decide
    | bracket b => cases b <;> decide
    | sign s => cases s <;> decide
    | gap g => cases g <;> decide
    | brace g =>
      cases g with
      | none => decide
      | some g => cases g <;> decide
    | braces => decide
  cases last : a.text.getLast? with
  | none => rfl
  | some c =>
    rcases last_class last with ⟨isWord, -⟩ | sign
    · rw [h] at isWord
      cases isWord
    · exact known c sign

theorem spell_head (a : Atom) (as : List Atom) : (spell (a :: as)).head? = some a.first := by
  obtain ⟨r, spelled⟩ := a.exists_text
  simp [spelled]

theorem exists_last (a : Atom) : ∃ c, a.text.getLast? = some c := by
  obtain ⟨r, spelled⟩ := a.exists_text
  exact ⟨_, by rw [spelled, List.getLast?_cons]⟩

theorem spell_last (as : List Atom) (a : Atom) : (spell (as ++ [a])).getLast? = a.text.getLast? := by
  obtain ⟨c, last⟩ := a.exists_last
  simp [List.getLast?_append, last]

theorem head?_spell {as : List Atom} {c : Char} (h : c ∈ (spell as).head?) :
    ∃ b ∈ as.head?, c = b.first := by
  cases as with
  | nil => cases h
  | cons b as =>
    rw [spell_head] at h
    exact ⟨b, rfl, (Option.some.inj h).symm⟩

/-! ### Atoms before other text -/

/-- No slash stands behind the blanks that the solid dull characters at the head of the text lead
to, so what ends before the text opens no regular expression. -/
def Clear (t : Text) : Prop :=
  (trimLeft (t.dropWhile fun c => isDull c && !isBlank c)).head? ≠ some '/'

theorem clear_nil : Clear [] := by simp [Clear, trimLeft]

theorem clear_of_blank {c : Char} {t : Text} (blank : isBlank c = true) :
    Clear (c :: t) ↔ (trimLeft t).head? ≠ some '/' := by
  rw [Clear, List.dropWhile_cons_of_neg (by simp [blank]), trimLeft, List.dropWhile_cons_of_pos blank,
    trimLeft]

theorem clear_of_solid {c : Char} {t : Text} (solid : isBlank c = false) (marked : isDull c = false) :
    Clear (c :: t) ↔ c ≠ '/' := by
  rw [Clear, List.dropWhile_cons_of_neg (by simp [marked]), trimLeft,
    List.dropWhile_cons_of_neg (by simp [solid])]
  simp

theorem Clear.trimLeft {t : Text} (h : Clear t) : (trimLeft t).head? ≠ some '/' := by
  cases t with
  | nil => simp [Ambient.trimLeft]
  | cons c r =>
    cases blank : isBlank c with
    | true =>
      rw [Ambient.trimLeft, List.dropWhile_cons_of_pos blank]
      exact (clear_of_blank blank).1 h
    | false =>
      rw [Ambient.trimLeft, List.dropWhile_cons_of_neg (by simp [blank])]
      intro slash
      obtain rfl : c = '/' := Option.some.inj slash
      exact (clear_of_solid blank (by decide)).1 h rfl

theorem Clear.prepend {w t : Text} (h : Clear t) (free : '/' ∉ w) : Clear (w ++ t) := by
  induction w with
  | nil => exact h
  | cons c w ih =>
    have later := ih fun member => free (List.mem_cons_of_mem c member)
    have other : c ≠ '/' := fun same => free (same ▸ List.mem_cons_self)
    rw [List.cons_append]
    cases blank : isBlank c with
    | true => exact (clear_of_blank blank).2 later.trimLeft
    | false =>
      cases dull : isDull c with
      | true => rwa [Clear, List.dropWhile_cons_of_pos (by simp [dull, blank])]
      | false => exact (clear_of_solid blank dull).2 other

/-- No regular expression starts behind a character before such a text. -/
theorem Clear.quiet {t : Text} (h : Clear t) (c : Char) : Quiet (c :: t) := by
  have known : ∀ head ∈ operandHeads, head ≠ [] ∧
      ∀ d ∈ head.tail, (isDull d && !isBlank d) = true := by decide
  intro head member r spelled
  obtain ⟨nonempty, tail⟩ := known head member
  obtain ⟨d, w, rfl⟩ := List.exists_cons_of_ne_nil nonempty
  rw [List.tail_cons] at tail
  obtain rfl : t = w ++ r := (List.cons.inj spelled).2
  have behind : Clear r := by rwa [Clear, List.dropWhile_append_of_pos tail] at h
  exact regex?_of_head? behind.trimLeft

theorem clear_spell (as : List Atom) {t : Text} (h : Clear t) : Clear (spell as ++ t) := by
  induction as with
  | nil => exact h
  | cons a as ih =>
    rw [spell_cons, List.append_assoc]
    cases a with
    | word w =>
      refine ih.prepend fun member => ?_
      rw [text_word] at member
      exact absurd (w.all_chars _ member) (by decide)
    | literal q =>
      have marks : isBlank q.mark = false ∧ isDull q.mark = false ∧ q.mark ≠ '/' := by
        rcases q.quote with mark | mark <;> rw [mark] <;> decide
      rw [text_literal, Quotation.text, List.cons_append, List.cons_append]
      exact (clear_of_solid marks.1 marks.2.1).2 marks.2.2
    | bracket b => exact ih.prepend (by cases b <;> decide)
    | sign s => exact ih.prepend (by cases s <;> decide)
    | gap g => exact ih.prepend (by cases g <;> decide)
    | brace g =>
      refine ih.prepend ?_
      cases g with
      | none => decide
      | some g => cases g <;> decide
    | braces => exact ih.prepend (by decide)

/-- The text starts like an atom that may stand behind `a`. -/
def Meets (a : Atom) (t : Text) : Prop := ∀ c ∈ t.head?, ∃ b, Follows a b = true ∧ c = b.first

theorem meets_spell {a : Atom} {as : List Atom} (follows : ∀ b ∈ as.head?, Follows a b = true)
    {t : Text} (last : as = [] → Meets a t) : Meets a (spell as ++ t) := by
  cases as with
  | nil => exact last rfl
  | cons b as =>
    intro c head
    rw [List.head?_append, spell_head] at head
    exact ⟨b, follows b rfl, (Option.some.inj head).symm⟩

/-- Behind an atom that no gap follows stands no blank. -/
theorem Meets.solid {a : Atom} {t : Text} (meets : Meets a t)
    (apart : ∀ b, Follows a b = true → b.isGap = false) : ∀ c ∈ t.head?, isBlank c = false := by
  intro c head
  obtain ⟨b, follows, rfl⟩ := meets c head
  rw [b.first_class.2.1]
  exact apart b follows

/-- Only a sign can go on with a sign, and those that do may not follow it. -/
theorem Meets.endsBefore {s : Sign} {t : Text} (meets : Meets (.sign s) t) :
    s.endsBefore t = true := by
  refine Sign.endsBefore_of_head fun c head => ?_
  obtain ⟨b, follows, rfl⟩ := meets c head
  cases isSign : b.isSign with
  | false =>
    have known := b.first_class.2.2 isSign
    simp only [List.mem_cons, List.not_mem_nil, or_false, not_or] at known
    exact ⟨known.1, fun _ => known.2⟩
  | true =>
    cases b with
    | sign s' => cases s <;> first | (cases follows) | (revert follows; cases s' <;> decide)
    | _ => cases isSign

section
variable {before : Option Char} {t : Text} (clear : Clear t)
include clear

theorem lex_gap {g : Gap} (stop : ∀ c ∈ t.head?, isBlank c = false) :
    lex .code before (g.text ++ t) = ⟨.blank, g.text⟩ :: lex .code g.text.getLast? t := by
  have quiet : Quiet (g.text ++ t) := by
    cases g <;> exact (clear.prepend (w := _) (by decide)).quiet _
  obtain ⟨c, r, spelled, read⟩ := step_gap before stop quiet
  have lexed := lex_of_step read
  rwa [← List.cons_append, ← spelled] at lexed

theorem lex_atom {a : Atom} (meets : Meets a t) (free : a.isWord = true → nameFree before = true) :
    lex .code before (a.text ++ t) = a.lexemes ++ lex .code a.text.getLast? t := by
  cases a with
  | word w =>
    have stop : ∀ c ∈ t.head?, isNameChar c = false := by
      intro c head
      obtain ⟨b, follows, rfl⟩ := meets c head
      rw [b.first_class.1]
      cases b <;> first | rfl | cases follows
    have quiet : Quiet (w.first :: (w.more ++ t)) :=
      (clear.prepend fun member => absurd (w.chars _ member) (by decide)).quiet w.first
    rw [text_word]
    exact lex_of_step (step_word (free rfl) stop quiet)
  | literal q =>
    have known : q.mark = '"' ∧ q.kind = .doubleQuoted ∨ q.mark = '\'' ∧ q.kind = .singleQuoted := by
      rcases q.quote with mark | mark <;> simp [Quotation.kind, mark]
    have read : step .code before q.mark _ = _ := step_quoted known q.quotedBody t
    have whole : q.text ++ t = q.mark :: (q.body ++ q.mark :: t) := by
      simp [Quotation.text]
    rw [text_literal, whole]
    exact lex_of_step read
  | bracket b =>
    have known : b.char ∈ openers ++ closers := by cases b <;> decide
    exact lex_of_step (step_bracket known (clear.quiet b.char))
  | sign s =>
    have quiet : Quiet (s.text ++ t) := by
      cases s <;> exact (clear.prepend (w := _) (by decide)).quiet _
    obtain ⟨c, r, spelled, read⟩ := step_sign before meets.endsBefore quiet
    rw [text_sign]
    have lexed := lex_of_step read
    rwa [← List.cons_append, ← spelled] at lexed
  | gap g =>
    rw [text_gap]
    exact lex_gap clear (meets.solid fun b follows => by cases b <;> first | rfl | cases follows)
  | brace g =>
    cases g with
    | none => exact lex_of_step (step_bracket (by decide) (clear.quiet '{'))
    | some g =>
      have stop : ∀ c ∈ t.head?, isBlank c = false :=
        meets.solid fun b follows => by cases b <;> first | rfl | cases follows
      have quiet : Quiet ('{' :: (g.text ++ t)) :=
        (clear.prepend (by cases g <;> decide)).quiet '{'
      have last : ('{' :: g.text).getLast? = g.text.getLast? := by cases g <;> rfl
      rw [text_brace, last]
      exact (lex_of_step (step_bracket (by decide) quiet)).trans
        (congrArg _ (lex_gap clear stop))
  | braces =>
    have inner : lex .code (some '{') ('}' :: t) = ⟨.bracket, ['}']⟩ :: lex .code (some '}') t :=
      lex_of_step (step_bracket (by decide) (clear.quiet '}'))
    have quiet : Quiet ('{' :: '}' :: t) := (clear.prepend (w := ['}']) (by decide)).quiet '{'
    exact (lex_of_step (step_bracket (by decide) quiet)).trans (congrArg _ inner)

/-- **The lexer gives back the atoms**, and reads on where they end. -/
theorem lex_spell_append {as : List Atom} (h : Sound as) (meets : ∀ a ∈ as.getLast?, Meets a t) :
    ∃ last, lex .code none (spell as ++ t) = as.flatMap lexemes ++ lex .code last t := by
  suffices general : ∀ before, (∀ a ∈ as.head?, a.isWord = true → nameFree before = true) →
      ∃ last, lex .code before (spell as ++ t) = as.flatMap lexemes ++ lex .code last t from
    general none fun _ _ _ => rfl
  induction as with
  | nil => exact fun before _ => ⟨before, rfl⟩
  | cons a as ih =>
    intro before free
    obtain ⟨follows, sound⟩ := List.isChain_cons.1 h
    have behind : Meets a (spell as ++ t) :=
      meets_spell follows fun nothing => meets a (by rw [nothing]; rfl)
    have before' : ∀ b ∈ as.head?, b.isWord = true → nameFree a.text.getLast? = true := by
      intro b head isWord
      have apart := follows b head
      refine nameFree_of_not_isWord ?_
      cases a with
      | word w =>
        cases b with
        | word _ => cases apart
        | _ => cases isWord
      | _ => rfl
    have later : ∀ b ∈ as.getLast?, Meets b t := fun b last => meets b (getLast?_cons_of_mem last)
    obtain ⟨last, read⟩ := ih sound later a.text.getLast? before'
    refine ⟨last, ?_⟩
    rw [spell_cons, List.append_assoc,
      lex_atom (clear_spell as clear) behind (free a rfl), read, List.flatMap_cons,
      List.append_assoc]

end

theorem lex_spell {as : List Atom} (h : Sound as) :
    lex .code none (spell as) = as.flatMap lexemes := by
  obtain ⟨last, read⟩ := lex_spell_append clear_nil h fun a _ c head => by cases head
  rw [List.append_nil] at read
  rw [read, lex, List.append_nil]

/-! ### Balances -/

theorem tokens_spell {as : List Atom} (h : Sound as) :
    tokens (spell as) = Lexeme.place 0 (as.flatMap lexemes) := by
  rw [tokens, lex_spell h]

/-- What an atom adds to the balance of all brackets. -/
def shift : Atom → Int
  | bracket .openParen | bracket .openSquare | brace _ => 1
  | bracket .closeParen | bracket .closeSquare | bracket .closeBrace => -1
  | _ => 0

/-- What an atom adds to the balance of braces. -/
def braceShift : Atom → Int
  | brace _ => 1
  | bracket .closeBrace => -1
  | _ => 0

/-- What a run of atoms adds to a balance. -/
def total (f : Atom → Int) : List Atom → Int
  | [] => 0
  | a :: as => f a + total f as

theorem total_append (f : Atom → Int) (as bs : List Atom) :
    total f (as ++ bs) = total f as + total f bs := by
  induction as with
  | nil => simp [total]
  | cons a as ih => simp only [List.cons_append, total, ih]; omega

theorem shift_of_kind {t : Token} (h : t.kind ≠ .bracket) : t.shift = 0 ∧ t.braceShift = 0 := by
  simp [Token.shift, Token.braceShift, Token.isOpener, Token.isCloser, Token.is, h]

/-- Words nest nothing. -/
theorem shift_word (w : Word) (start : Nat) : Token.shift ⟨start, w.kind, w.text⟩ = 0 ∧
    Token.braceShift ⟨start, w.kind, w.text⟩ = 0 :=
  shift_of_kind (by rcases w.kind_eq with kind | kind <;> simp [kind])

theorem balance_lexemes (a : Atom) (start : Nat) :
    balanceOf Token.shift (Lexeme.place start a.lexemes) = a.shift ∧
      balanceOf Token.braceShift (Lexeme.place start a.lexemes) = a.braceShift := by
  cases a with
  | word w => simp [lexemes, Lexeme.place, balanceOf, shift_word, shift, braceShift]
  | literal q =>
    have zero := shift_of_kind (t := ⟨start, q.kind, q.text⟩) (by
      unfold Quotation.kind
      split <;> simp)
    simp [lexemes, Lexeme.place, balanceOf, zero, shift, braceShift]
  | bracket b => cases b <;> exact ⟨rfl, rfl⟩
  | sign s => cases s <;> exact ⟨rfl, rfl⟩
  | gap g => exact ⟨rfl, rfl⟩
  | brace g => cases g <;> exact ⟨rfl, rfl⟩
  | braces => exact ⟨rfl, rfl⟩

theorem balance_place (as : List Atom) (start : Nat) :
    balanceOf Token.shift (Lexeme.place start (as.flatMap lexemes)) = total shift as ∧
      balanceOf Token.braceShift (Lexeme.place start (as.flatMap lexemes)) =
        total braceShift as := by
  induction as generalizing start with
  | nil => exact ⟨rfl, rfl⟩
  | cons a as ih =>
    simp only [List.flatMap_cons, Lexeme.place_append, balanceOf_append, balance_lexemes, ih, total,
      and_self]

theorem balance_spell {as : List Atom} (h : Sound as) :
    bracketBalance (spell as) = total shift as ∧ braceBalance (spell as) = total braceShift as := by
  rw [bracketBalance, braceBalance, tokens_spell h]
  exact balance_place as 0

end Atom

end Ambient
