import Ambient.Proofs.Surroundings
import Mathlib.Data.List.Find

/-!
Expressions written part by part: names, numbers, quoted literals, brackets and binary signs, with
gaps between them. Where each part may stand behind the one before it (`Part.Admits`), the lexer
gives back exactly the parts, whatever closes the expression (`lex_spell`). A slash is division
here, since it never stands where an operand is expected.
-/

namespace Ambient

open Lexer

/-- A literal in quotes, with escapes. -/
structure QuotedText where
  mark : Char
  body : Text
  quote : mark = '"' ∨ mark = '\''
  inside : QuotedBody mark body

namespace QuotedText

def text (q : QuotedText) : Text := q.mark :: q.body ++ [q.mark]

def kind (q : QuotedText) : TokenKind := if q.mark = '"' then .doubleQuoted else .singleQuoted

theorem known_mark (q : QuotedText) :
    q.mark = '"' ∧ q.kind = .doubleQuoted ∨ q.mark = '\'' ∧ q.kind = .singleQuoted := by
  rcases q.quote with mark | mark <;> simp [kind, mark]

theorem lex_append (q : QuotedText) (before : Option Char) (r : Text) :
    lex .code before (q.text ++ r) = ⟨q.kind, q.text⟩ :: lex .code (some q.mark) r := by
  have whole : q.text ++ r = q.mark :: (q.body ++ q.mark :: r) := by simp [text]
  have last : (q.mark :: q.body ++ [q.mark]).getLast? = some q.mark := List.getLast?_concat
  rw [whole, lex_of_step (step_quoted q.known_mark q.inside r), last]
  rfl

end QuotedText

/-- Signs between two operands. -/
def binarySigns : List Text :=
  ["=", "=>", "===", "==", "!==", "!=", "<=", ">=", "&&", "||", "??", ",", ":", "?", "|", "&", "^",
    "<", ">", "<<", ">>", ">>>", "+", "-", "*", "**", "/", "%"].map String.toList

/-- The characters of signs. A dot is none: it stands in numbers. -/
def signChars : List Char := shortOperators.erase '.'

def isNumberChar (c : Char) : Bool := isWord c || c == '.'

inductive Part
  /-- A name or a word between operands, but no word that expects an operand. -/
  | name (w : Word) (plain : w.text ∉ operandWords)
  /-- A number, with or without digits before the point. -/
  | number (point : Bool) (first : Char) (more : Text) (digit : isDecimal first = true)
      (chars : ∀ c ∈ more, isNumberChar c = true)
  | literal (q : QuotedText)
  | bracket (c : Char) (sign : c ∈ openers ++ closers)
  | sign (text : Text) (member : text ∈ binarySigns)

namespace Part

def text : Part → Text
  | name w _ => w.text
  | number point first more _ _ => (if point then ['.'] else []) ++ first :: more
  | literal q => q.text
  | bracket c _ => [c]
  | sign s _ => s

/-- A sign that the lexer does not know as one is read character by character. -/
def lexemes : Part → List Lexeme
  | name w _ => [⟨w.kind, w.text⟩]
  | number point first more _ _ =>
    (if point then [⟨.operator, ['.']⟩] else []) ++ [⟨.number, first :: more⟩]
  | literal q => [⟨q.kind, q.text⟩]
  | bracket c _ => [⟨.bracket, [c]⟩]
  | sign s _ =>
    if longOperators.contains s then [⟨.operator, s⟩]
    else s.map fun c => ⟨.operator, [c]⟩

/-- The part runs on into a name character behind it. -/
def isWordlike : Part → Bool
  | name .. | number .. => true
  | _ => false

/-- An operand is expected behind the part. -/
def expects : Part → Bool
  | bracket c _ => openers.contains c
  | sign .. => true
  | _ => false

def isSign : Part → Bool
  | sign .. => true
  | _ => false

end Part

/-- A part with the gap before it. -/
structure Placed where
  gap : Text
  blank : ∀ c ∈ gap, isBlank c = true
  part : Part

namespace Placed

def text (p : Placed) : Text := p.gap ++ p.part.text

def lexemes (p : Placed) : List Lexeme :=
  (if p.gap = [] then [] else [⟨.blank, p.gap⟩]) ++ p.part.lexemes

def spell (ps : List Placed) : Text := ps.flatMap text

end Placed

/-- The part may stand behind `x`: no sign where an operand is expected, and a gap between two words
or numbers. -/
def Part.admits (x : Part) (p : Placed) : Bool :=
  !(x.expects && p.part.isSign) && !(x.isWordlike && p.part.isWordlike && p.gap == [])

/-- An expression: every part may stand where it stands, and each bracket has its partner. -/
structure Expression where
  parts : List Placed
  sound : parts.IsChain fun x p => x.part.admits p = true
  /-- It starts with an operand, without a gap. -/
  start : ∀ p ∈ parts.head?, p.gap = [] ∧ p.part.isSign = false
  paired : balanceOf Token.shift (Lexeme.place 0 (parts.flatMap Placed.lexemes)) = 0

namespace Expression

def text (e : Expression) : Text := Placed.spell e.parts

def lexemes (e : Expression) : List Lexeme := e.parts.flatMap Placed.lexemes

end Expression

/-! ### Steps of the lexer -/

/-- No sign stands behind the blanks at the head of the text. -/
def Unsigned (t : Text) : Prop := ∀ c ∈ (trimLeft t).head?, c ∉ signChars

theorem Unsigned.head {t : Text} (h : Unsigned t) : ∀ c ∈ t.head?, c ∉ signChars := by
  have signs : ∀ c ∈ signChars, isBlank c = false := by decide
  intro c first sign
  exact h c (by rwa [trimLeft_of_head first (signs c sign)]) sign

theorem Unsigned.regex? {t : Text} (h : Unsigned t) : regex? (trimLeft t) = none :=
  regex?_of_head? fun slash => h '/' slash (by decide)

/-- What is known of all binary signs. -/
theorem binarySign_known {sign : Text} (h : sign ∈ binarySigns) :
    sign ≠ [] ∧ (∀ c ∈ sign, c ∈ signChars) ∧ '/' ∉ sign.tail := by
  have all : ∀ sign ∈ binarySigns,
      sign ≠ [] ∧ (∀ c ∈ sign, c ∈ signChars) ∧ '/' ∉ sign.tail := by decide
  exact all sign h

theorem startsWith_append {mark sign r : Text} (signs : ∀ c ∈ mark, c ∈ signChars)
    (stop : ∀ c ∈ r.head?, c ∉ signChars) :
    startsWith mark (sign ++ r) = startsWith mark sign := by
  induction mark generalizing sign with
  | nil => simp [startsWith]
  | cons m mark ih =>
    cases sign with
    | nil =>
      cases r with
      | nil => rfl
      | cons c r =>
        have other : (m == c) = false := by
          simpa using fun same : m = c => stop c rfl (same ▸ signs m List.mem_cons_self)
        simp [startsWith, List.isPrefixOf, other]
    | cons c sign =>
      have later : startsWith mark (sign ++ r) = startsWith mark sign :=
        ih fun d member => signs d (List.mem_cons_of_mem m member)
      simp only [startsWith, List.cons_append, List.isPrefixOf] at later ⊢
      rw [later]

/-- Signs before an operand make the operators that they would make at the end of a text. -/
theorem startsWith_longOperator {mark : Text} (member : mark ∈ longOperators) {c : Char}
    (sign : c ∈ signChars) (more : Text) {r : Text} (stop : ∀ c ∈ r.head?, c ∉ signChars) :
    startsWith mark (c :: more ++ r) = startsWith mark (c :: more) := by
  have known : ∀ mark ∈ longOperators,
      mark ≠ [] ∧ ((∀ d ∈ mark, d ∈ signChars) ∨ ∀ d ∈ mark.head?, d ∉ signChars) := by decide
  obtain ⟨nonempty, signs | foreign⟩ := known mark member
  · exact startsWith_append signs stop
  · obtain ⟨d, ds, rfl⟩ := List.exists_cons_of_ne_nil nonempty
    have other : (d == c) = false := by
      simpa using fun same : d = c => foreign d rfl (same ▸ sign)
    simp [startsWith, List.isPrefixOf, other]

theorem quiet_signs {c : Char} {sign r : Text} (signs : ∀ d ∈ c :: sign, d ∈ signChars)
    (noSlash : '/' ∉ sign) (h : Unsigned r) : Quiet (c :: sign ++ r) := by
  have heads : ∀ head ∈ operandHeads, head ≠ [] ∧
      (∀ d ∈ head.head?, d ∈ signChars → ∀ d ∈ head, d ∈ signChars) := by decide
  have solid : ∀ d ∈ signChars, isBlank d = false := by decide
  intro head member rest spelled
  obtain ⟨nonempty, onlySigns⟩ := heads head member
  obtain ⟨d, ds, rfl⟩ := List.exists_cons_of_ne_nil nonempty
  obtain ⟨rfl, behind⟩ := List.cons.inj spelled
  have tail := onlySigns c rfl (signs c List.mem_cons_self)
  rcases List.append_eq_append_iff.1 behind with ⟨more, longer, rfl⟩ | ⟨more, shorter, rfl⟩
  · cases more with
    | nil => exact h.regex?
    | cons d more => exact absurd (tail d (by simp [longer])) (h.head d rfl)
  · cases more with
    | nil => exact h.regex?
    | cons d more =>
      have inSign : d ∈ sign := by simp [shorter]
      have sign := solid d (signs d (List.mem_cons_of_mem c inSign))
      refine regex?_of_head? ?_
      rw [List.cons_append, trimLeft, List.dropWhile_cons_of_neg (by simp [sign])]
      simpa using fun slash : d = '/' => noSlash (slash ▸ inSign)

/-- A slash that opens no comment is a sign. -/
theorem step_slash (before : Option Char) {r : Text} (sign : ∀ c ∈ r.head?, c ∉ signChars) :
    step .code before '/' r = .single .operator .code (['/'], r) := by
  have quiet : Quiet ('/' :: r) := quiet_of_foreign (by decide) r
  have foreign : ∀ mark ∈ longOperators, mark ≠ [] ∧ mark.head? ≠ some '/' := by decide
  have noLong : longOperator before ('/' :: r) = none := by
    refine List.findSome?_eq_none_iff.2 fun mark member => ?_
    obtain ⟨nonempty, other⟩ := foreign mark member
    obtain ⟨d, ds, rfl⟩ := List.exists_cons_of_ne_nil nonempty
    have apart : d ≠ '/' := by simpa using other
    simp [Lexer.sign, after?_cons, apart]
  have noComment : blockComment before ('/' :: r) = none ∧ lineComment before ('/' :: r) = none := by
    cases r with
    | nil => exact ⟨rfl, rfl⟩
    | cons c r =>
      have star : '*' ≠ c := fun same => sign c rfl (same ▸ by decide)
      have slash : '/' ≠ c := fun same => sign c rfl (same ▸ by decide)
      simp [blockComment, lineComment, after?_cons, star, slash]
  have noQuote : ∀ q kind, q ≠ '/' → quoted q kind before ('/' :: r) = none := by
    intro q kind other
    simp [quoted, after?_cons, other]
  have noTemplate : Lexer.sign .template .template ['`'] before ('/' :: r) = none := by
    simp [Lexer.sign, after?_cons]
  have noBracket : bracket before ('/' :: r) = none := by
    rw [bracket, one_cons, if_neg (by decide)]
  have short : shortOperator before ('/' :: r) = some (.single .operator .code (['/'], r)) := by
    rw [shortOperator, one_cons, if_pos (by decide)]
  simp only [step, rules, List.findSome?_cons, noComment, noQuote _ _ (show '"' ≠ '/' by decide),
    noQuote _ _ (show '\'' ≠ '/' by decide), noTemplate, quiet.openerRegex, quiet.operatorRegex,
    quiet.wordRegex, noBracket, noLong, short]
  rfl

/-- The lexer reads the first operator of its list that the text starts with. -/
theorem longOperator_eq (before : Option Char) (t : Text) : longOperator before t =
    (longOperators.find? fun mark => startsWith mark t).map fun mark =>
      .single .operator .code (mark, t.drop mark.length) := by
  unfold longOperator
  induction longOperators with
  | nil => rfl
  | cons mark marks ih =>
    cases found : after? mark t with
    | none =>
      have other := after?_eq_none_iff.1 found
      rw [List.findSome?_cons, Lexer.sign, found, Option.map_none, ih, List.find?_cons, other]
    | some r =>
      have starts : startsWith mark t = true := by
        simpa using mt after?_eq_none_iff.2 (by simp [found])
      have left : t.drop mark.length = r := by
        rw [after?_eq_some_iff.1 found, List.drop_left' rfl]
      rw [List.findSome?_cons, Lexer.sign, found, Option.map_some, List.find?_cons, starts,
        Option.map_some, left]

/-- Behind a sign the lexer reads on as at the start of a text. -/
theorem lex_behind_sign {c : Char} (sign : c ∈ signChars) (r : Text) :
    lex .code (some c) r = lex .code none r := by
  have free : ∀ d ∈ signChars, nameFree (some d) = nameFree none := by decide
  exact lex_before none (.inl (free c sign))

theorem lex_long {s r : Text} (member : s ∈ binarySigns) (long : s ∈ longOperators) (h : Unsigned r)
    (before : Option Char) : lex .code before (s ++ r) = ⟨.operator, s⟩ :: lex .code none r := by
  have first : ∀ s ∈ binarySigns, s ∈ longOperators →
      longOperators.find? (fun mark => startsWith mark s) = some s := by decide
  have noSlashes : ∀ mark ∈ longOperators, ∀ c ∈ mark, c ≠ '/' := by decide
  have apart : ∀ d ∈ signChars, d ≠ '/' → d ∉ literalSigns ∧ d ∉ openers ++ closers := by decide
  obtain ⟨nonempty, signs, noSlash⟩ := binarySign_known member
  obtain ⟨c, more, rfl⟩ := List.exists_cons_of_ne_nil nonempty
  obtain ⟨literal, noBracket⟩ := apart c (signs c (by simp)) (noSlashes _ long c (by simp))
  have skip : bracket before (c :: (more ++ r)) = none := by
    rw [bracket, one_cons, if_neg (by simpa using noBracket)]
  have same : (longOperators.find? fun mark => startsWith mark (c :: more ++ r)) =
      longOperators.find? fun mark => startsWith mark (c :: more) :=
    List.find?_congr fun mark inList =>
      startsWith_longOperator inList (signs c List.mem_cons_self) more h.head
  have read : step .code before c (more ++ r) = .single .operator .code (c :: more, r) := by
    rw [step_of_quiet literal (r := more ++ r) (quiet_signs signs noSlash h), plainRules,
      List.findSome?_cons, skip, List.findSome?_cons, longOperator_eq, ← List.cons_append, same, first _ member long,
      Option.map_some, List.drop_left' rfl]
    rfl
  obtain ⟨d, last⟩ : ∃ d, (c :: more).getLast? = some d := ⟨_, List.getLast?_cons⟩
  rw [List.cons_append, lex_of_step read, last, lex_behind_sign (signs d (List.mem_of_getLast? last))]

/-- Signs that make no operator together are read one by one. -/
theorem lex_shorts {s r : Text} (signs : ∀ c ∈ s, c ∈ signChars) (noSlash : '/' ∉ s)
    (alone : ∀ t ∈ s.tails, t ≠ [] → ∀ mark ∈ longOperators, startsWith mark t = false)
    (h : Unsigned r) (before : Option Char) (free : s = [] → nameFree before = true) :
    lex .code before (s ++ r) = (s.map fun c => ⟨.operator, [c]⟩) ++ lex .code none r := by
  have literal : ∀ d ∈ signChars, d ≠ '/' → d ∉ literalSigns := by decide
  induction s generalizing before with
  | nil => exact lex_before none (.inl (free rfl))
  | cons c s ih =>
    have sign := signs c List.mem_cons_self
    have noSlash' : '/' ∉ s := fun member => noSlash (List.mem_cons_of_mem c member)
    have lone : ∀ mark ∈ longOperators, startsWith mark (c :: (s ++ r)) = false := by
      intro mark member
      rw [← List.cons_append, startsWith_longOperator member sign s h.head]
      exact alone (c :: s) (by simp) (List.cons_ne_nil c s) mark member
    have plain := literal c sign fun slash => noSlash (slash ▸ List.mem_cons_self)
    have read : step .code before c (s ++ r) = .single .operator .code ([c], s ++ r) :=
      step_short (List.mem_of_mem_erase sign) plain lone (quiet_signs signs noSlash' h)
    have later : lex .code (some c) (s ++ r) =
        (s.map fun c => ⟨.operator, [c]⟩) ++ lex .code none r := by
      refine ih (fun d member => signs d (List.mem_cons_of_mem c member)) noSlash'
        (fun t tail => alone t (by simp [tail])) (some c) fun _ => ?_
      have known : ∀ d ∈ signChars, nameFree (some d) = true := by decide
      exact known c sign
    rw [List.cons_append, lex_of_step read, List.map_cons, List.cons_append, ← later]
    rfl

theorem lex_sign {s r : Text} (member : s ∈ binarySigns) (h : Unsigned r) (before : Option Char) :
    lex .code before (s ++ r) = (Part.sign s member).lexemes ++ lex .code none r := by
  have short : ∀ s ∈ binarySigns, s ∉ longOperators → s = ['/'] ∨ '/' ∉ s ∧
      ∀ t ∈ s.tails, t ≠ [] → ∀ mark ∈ longOperators, startsWith mark t = false := by decide
  obtain ⟨nonempty, signs, -⟩ := binarySign_known member
  by_cases long : s ∈ longOperators
  · rw [lex_long member long h, Part.lexemes, if_pos (by simpa using long)]
    rfl
  · rw [Part.lexemes, if_neg (by simpa using long)]
    rcases short s member long with rfl | ⟨noSlash, alone⟩
    · exact (lex_of_step (step_slash before h.head)).trans
        (congrArg _ (lex_behind_sign (by decide) r))
    · exact lex_shorts signs noSlash alone h before fun none => absurd none nonempty

/-- Digits and letters have no character in common. -/
theorem isNameStart_of_isDecimal {c : Char} (h : isDecimal c = true) : isNameStart c = false := by
  have signs : ∀ d ∈ ['_', '$'], isDecimal d = false := by decide
  have letter : c.isAlpha = false := by
    have classes : c.isAlpha = (decide (c.val ≥ 'A'.val ∧ c.val ≤ 'Z'.val) ||
        (c.val ≥ 'a'.val && c.val ≤ 'z'.val)) := rfl
    unfold isDecimal at h
    split at h
    · have digit : '0'.val ≤ c.val ∧ c.val ≤ '9'.val := by simpa [Char.isDigit] using h
      simp only [UInt32.le_iff_toNat_le] at digit
      have bounds : '9'.val.toNat = 57 ∧ 'A'.val.toNat = 65 ∧ 'a'.val.toNat = 97 := ⟨rfl, rfl, rfl⟩
      simp only [classes, Bool.or_eq_false_iff, Bool.and_eq_false_iff, decide_eq_false_iff_not,
        UInt32.le_iff_toNat_le, ge_iff_le]
      omega
    · next ascii =>
      have bounds : 'Z'.val.toNat = 90 ∧ 'z'.val.toNat = 122 ∧ c.val.toNat = c.toNat :=
        ⟨rfl, rfl, rfl⟩
      simp only [classes, Bool.or_eq_false_iff, Bool.and_eq_false_iff, decide_eq_false_iff_not,
        UInt32.le_iff_toNat_le, ge_iff_le]
      omega
  have other : c ≠ '_' ∧ c ≠ '$' := by
    constructor <;> rintro rfl <;> simp [signs] at h
  simp [isNameStart, letter, other]

theorem step_number {first : Char} {more r : Text} (digit : isDecimal first = true)
    (chars : ∀ c ∈ more, isNumberChar c = true) (stop : ∀ c ∈ r.head?, isNumberChar c = false)
    (before : Option Char) :
    step .code before first (more ++ r) = .single .number .code (first :: more, r) := by
  have signs : ∀ d ∈ literalSigns ++ signStarts, isDecimal d = false := by decide
  have heads : ∀ head ∈ operandHeads, ∀ d ∈ head.head?, isDecimal d = false := by decide
  have words : ∀ word ∈ keywords, word ≠ [] ∧ ∀ d ∈ word.head?, isDecimal d = false := by decide
  have plain : first ∉ literalSigns ++ signStarts := fun member => by
    simp [signs first member] at digit
  have quiet : Quiet (first :: (more ++ r)) :=
    quiet_of_foreign (fun head member start => by simp [heads head member first start] at digit) _
  have noKeyword : keyword before (first :: (more ++ r)) = none := by
    have other : (first :: (more ++ r)).takeWhile isNameChar ∉ keywords := by
      intro member
      obtain ⟨nonempty, letter⟩ := words _ member
      rw [List.takeWhile_cons] at nonempty letter
      split at nonempty
      · next inName =>
        rw [if_pos inName] at letter
        simp [letter first rfl] at digit
      · exact nonempty rfl
    simp [keyword, other]
  have noName : name before (first :: (more ++ r)) = none := by
    rw [name, run, if_neg (by simp [isNameStart_of_isDecimal digit])]
  obtain ⟨taken, left⟩ := span_of_stop chars stop
  have read : number before (first :: (more ++ r)) =
      some (.single .number .code (first :: more, r)) := by
    rw [number, run, if_pos digit]
    exact congrArg some (congrArg (Step.single .number .code) (Prod.ext (congrArg (first :: ·) taken) left))
  rw [step_of_plain plain quiet, List.findSome?_cons, noKeyword, List.findSome?_cons, noName,
    List.findSome?_cons, read]
  rfl

theorem lex_digits {first : Char} {more r : Text} (digit : isDecimal first = true)
    (chars : ∀ c ∈ more, isNumberChar c = true)
    (stop : ∀ c ∈ r.head?, isNumberChar c = false ∧ isNameChar c = false) (before : Option Char) :
    lex .code before (first :: more ++ r) = ⟨.number, first :: more⟩ :: lex .code none r := by
  have read := step_number digit chars (fun c head => (stop c head).1) before
  exact (lex_of_step read).trans (congrArg _ (lex_before none (.inr fun c head => (stop c head).2)))

/-- A point before a digit is a sign of its own. -/
theorem step_point {first : Char} (digit : isDecimal first = true) (r : Text) :
    step .code none '.' (first :: r) = .single .operator .code (['.'], first :: r) := by
  have known : ∀ mark ∈ longOperators, mark.head? = some '.' → mark.tail.head? = some '.' := by decide
  have nonempty : ∀ mark ∈ longOperators, mark ≠ [] := by decide
  have notPoint : first ≠ '.' := by
    rintro rfl
    exact absurd digit (by decide)
  refine step_short (by decide) (by decide) (fun mark member => ?_) (quiet_of_foreign (by decide) _)
  obtain ⟨d, ds, rfl⟩ := List.exists_cons_of_ne_nil (nonempty mark member)
  by_cases same : d = '.'
  · obtain ⟨e, es⟩ := List.head?_eq_some_iff.1 (known _ member (congrArg some same))
    have other : ('.' == first) = false := by simpa using notPoint.symm
    rw [List.tail_cons] at es
    simp [startsWith, List.isPrefixOf, es, other]
  · have other : (d == '.') = false := by simpa using same
    simp [startsWith, List.isPrefixOf, other]

namespace Part

/-- What stands behind the part neither runs on from it nor makes it read on. -/
structure Stops (x : Part) (r : Text) : Prop where
  word : x.isWordlike = true → ∀ c ∈ r.head?, isNumberChar c = false ∧ isNameChar c = false
  sign : x.expects = true → Unsigned r

/-- **The lexer reads a part where it stands**, and goes on behind it as at the start of a text. -/
theorem lex_append {x : Part} {r : Text} (stops : x.Stops r) :
    lex .code none (x.text ++ r) = x.lexemes ++ lex .code none r := by
  cases x with
  | name w plain =>
    have stop : ∀ c ∈ r.head?, isNameChar c = false := fun c first => (stops.word rfl c first).2
    have read : step .code none w.first (w.more ++ r) = .single w.kind .code (w.text, r) :=
      step_word rfl stop (quiet_word stop (.inl plain))
    exact (lex_of_step read).trans (congrArg _ (lex_before none (.inr stop)))
  | number point first more digit chars =>
    have stop := stops.word rfl
    cases point with
    | false => exact lex_digits digit chars stop none
    | true =>
      exact (lex_of_step (step_point digit (more ++ r))).trans
        (congrArg _ (lex_digits digit chars stop _))
  | literal q =>
    have free : nameFree (some q.mark) = nameFree none := by
      rcases q.quote with mark | mark <;> rw [mark] <;> decide
    rw [text, lexemes, q.lex_append, lex_before none (.inl free)]
    rfl
  | bracket c sign =>
    have quiet : Quiet (c :: r) := by
      have foreign : ∀ c ∈ openers ++ closers, openers.contains c = false →
          ∀ head ∈ operandHeads, head.head? ≠ some c := by decide
      have single : ∀ c ∈ openers ++ closers,
          ∀ head ∈ operandHeads, head.head? = some c → head = [c] := by decide
      cases opens : openers.contains c with
      | false => exact quiet_of_foreign (foreign c sign opens) r
      | true => exact quiet_of_head (single c sign) (stops.sign opens).regex?
    have free : ∀ c ∈ openers ++ closers, nameFree (some c) = nameFree none := by decide
    have read : step .code none c r = .single .bracket .code ([c], r) := step_bracket sign quiet
    exact (lex_of_step read).trans (congrArg _ (lex_before none (.inl (free c sign))))
  | sign s member => exact lex_sign member (stops.sign rfl) none

/-- The first character of a part shows what kind of part it is. -/
theorem first_class (x : Part) : ∃ c, x.text.head? = some c ∧ isBlank c = false ∧
    (x.isWordlike = false → isNumberChar c = false ∧ isNameChar c = false) ∧
    (x.isSign = false → c ∉ signChars) := by
  have signs : ∀ c ∈ signChars, isNameStart c = false ∧ isDecimal c = false := by decide
  cases x with
  | name w plain =>
    refine ⟨w.first, rfl, isBlank_of_isNameStart w.start, nofun, fun _ member => ?_⟩
    have start := w.start
    rw [(signs w.first member).1] at start
    cases start
  | number point first more digit chars =>
    cases point with
    | false =>
      refine ⟨first, rfl, ?_, nofun, fun _ member => ?_⟩
      · cases blank : isBlank first with
        | false => rfl
        | true => rw [isDecimal_of_isBlank blank] at digit; cases digit
      · rw [(signs first member).2] at digit
        cases digit
    | true => exact ⟨'.', rfl, by decide, nofun, fun _ => by decide⟩
  | literal q =>
    have known : ∀ c ∈ ['"', '\''], isBlank c = false ∧
        (isNumberChar c = false ∧ isNameChar c = false) ∧ c ∉ signChars := by decide
    obtain ⟨solid, apart, noSign⟩ := known q.mark (by simpa using q.quote)
    exact ⟨q.mark, rfl, solid, fun _ => apart, fun _ => noSign⟩
  | bracket c sign =>
    have known : ∀ c ∈ openers ++ closers, isBlank c = false ∧
        (isNumberChar c = false ∧ isNameChar c = false) ∧ c ∉ signChars := by decide
    obtain ⟨solid, apart, noSign⟩ := known c sign
    exact ⟨c, rfl, solid, fun _ => apart, fun _ => noSign⟩
  | sign s member =>
    have known : ∀ s ∈ binarySigns, ∀ c ∈ s.head?, isBlank c = false ∧
        isNumberChar c = false ∧ isNameChar c = false := by decide
    obtain ⟨c, more, rfl⟩ := List.exists_cons_of_ne_nil (binarySign_known member).1
    obtain ⟨solid, apart⟩ := known _ member c rfl
    exact ⟨c, rfl, solid, fun _ => apart, nofun⟩

end Part

namespace Placed

theorem trimLeft_append (p : Placed) (r : Text) : trimLeft (p.text ++ r) = p.part.text ++ r := by
  obtain ⟨c, first, solid, -⟩ := p.part.first_class
  have head : (p.part.text ++ r).head? = some c := by rw [List.head?_append, first]; rfl
  have kept : trimLeft (p.part.text ++ r) = p.part.text ++ r := trimLeft_of_head head solid
  rw [text, List.append_assoc, trimLeft, List.dropWhile_append_of_pos p.blank]
  exact kept

end Placed

namespace Part

/-- What may stand behind a part does not run on from it. -/
theorem stops_of_admits {x : Part} {p : Placed} (admitted : x.admits p = true) (r : Text) :
    x.Stops (p.text ++ r) := by
  obtain ⟨c, first, solid, apart, noSign⟩ := p.part.first_class
  simp only [admits, Bool.and_eq_true, Bool.not_eq_true', Bool.and_eq_false_iff] at admitted
  obtain ⟨operand, gapped⟩ := admitted
  refine ⟨fun word d head => ?_, fun expected d head => ?_⟩
  · cases gap : p.gap with
    | nil =>
      rw [Placed.text, gap, List.nil_append, List.head?_append, first] at head
      obtain rfl := Option.some.inj head
      have wordless : p.part.isWordlike = false := by simpa [word, gap] using gapped
      exact apart wordless
    | cons b gap' =>
      rw [Placed.text, gap] at head
      obtain rfl : b = d := Option.some.inj head
      have noName := isNameChar_of_isBlank (p.blank b (by simp [gap]))
      have noDot : b ≠ '.' := by
        rintro rfl
        exact absurd (p.blank '.' (by simp [gap])) (by decide)
      have noWord : isWord b = false := (Bool.or_eq_false_iff.1 noName).1
      exact ⟨by simp [isNumberChar, noWord, noDot], noName⟩
  · rw [p.trimLeft_append, List.head?_append, first] at head
    obtain rfl := Option.some.inj head
    exact noSign (operand.resolve_left (by simp [expected]))

/-- A closing parenthesis ends every part, and so does the end of the text. -/
theorem stops_of_end (x : Part) {r : Text} (h : ∀ c ∈ r.head?, c = ')') : x.Stops r := by
  refine ⟨fun _ c head => ?_, fun _ c head => ?_⟩
  · rw [h c head]
    decide
  · cases r with
    | nil => cases head
    | cons d r =>
      obtain rfl := h d rfl
      obtain rfl : ')' = c := Option.some.inj head
      decide

end Part

/-- The lexer gives back a part with the gap before it. -/
theorem Placed.lex_append {p : Placed} {r : Text} (stops : p.part.Stops r) :
    lex .code none (p.text ++ r) = p.lexemes ++ lex .code none r := by
  cases gap : p.gap with
  | nil =>
    rw [text, lexemes, gap, if_pos rfl, List.nil_append, List.nil_append]
    exact Part.lex_append stops
  | cons b more =>
    have blank := p.blank
    rw [gap] at blank
    obtain ⟨c, first, solid, -⟩ := p.part.first_class
    have stop : ∀ d ∈ (p.part.text ++ r).head?, isBlank d = false := by
      intro d head
      rw [List.head?_append, first] at head
      obtain rfl := Option.some.inj head
      exact solid
    obtain ⟨taken, left⟩ := span_of_stop (fun d member => blank d (List.mem_cons_of_mem b member)) stop
    rw [text, lexemes, gap, if_neg (List.cons_ne_nil b more), List.append_assoc, List.cons_append,
      lex_blanks (blank b List.mem_cons_self), taken, left, Part.lex_append stops]
    rfl

theorem Placed.lex_spell_append {ps : List Placed}
    (sound : ps.IsChain fun x p => x.part.admits p = true) {r : Text} (closed : ∀ c ∈ r.head?, c = ')') :
    lex .code none (spell ps ++ r) = ps.flatMap lexemes ++ lex .code none r := by
  induction ps with
  | nil => rfl
  | cons p ps ih =>
    obtain ⟨admitted, later⟩ := List.isChain_cons.1 sound
    have stops : p.part.Stops (spell ps ++ r) := by
      cases ps with
      | nil => exact p.part.stops_of_end closed
      | cons q ps =>
        rw [spell, List.flatMap_cons, List.append_assoc]
        exact Part.stops_of_admits (admitted q rfl) _
    rw [spell, List.flatMap_cons, List.append_assoc, List.flatMap_cons, List.append_assoc, ← spell,
      lex_append stops, ih later]

namespace Expression

/-- **The lexer gives back an expression part by part** before the parenthesis that closes it. -/
theorem lex_append (e : Expression) (r : Text) :
    lex .code none (e.text ++ ')' :: r) = e.lexemes ++ lex .code none (')' :: r) :=
  Placed.lex_spell_append e.sound fun _ head => (Option.some.inj head).symm

theorem lex_text (e : Expression) : lex .code none e.text = e.lexemes := by
  have read := Placed.lex_spell_append e.sound (r := []) nofun
  rw [List.append_nil, lex, List.append_nil] at read
  exact read

end Expression

end Ambient
