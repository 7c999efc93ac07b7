import Ambient.Proofs.Balance
import Ambient.Proofs.Signature

/-!
Annotations of constants. The equals sign behind a type is the first outside all brackets and angle
signs (`find?_assign`), so the type is kept as it is written, whatever the initializer
(`annotation_kept`).
-/

namespace Ambient

open Atom Phrase Nesting

/-! ### The equals sign -/

/-- A search passes over lexemes other than its target, like a header that reads them. -/
theorem findFrom_through {target : Text} (h : Header) {ls : List Lexeme}
    (other : ∀ l ∈ ls, l.text ≠ target) (start : Nat) (ts : List Token) :
    findFrom true target 0 h.depth (Lexeme.place start ls ++ ts) =
      findFrom true target 0 (through h ls).depth ts := by
  induction ls generalizing h start with
  | nil => rfl
  | cons l ls ih =>
    have text : (l.text == target) = false := by simpa using other l List.mem_cons_self
    have later (h' : Header) := ih h' (fun m member => other m (List.mem_cons_of_mem l member))
      (start + l.text.length)
    rw [Lexeme.place, List.cons_append, findFrom, Token.isTop, text, Bool.and_false, Bool.false_and,
      if_neg (by decide), through, List.foldl_cons]
    by_cases gap : l.kind.isGap = true
    · have same : Token.depthAfter true h.depth ⟨start, l.kind, l.text⟩ = h.depth := by
        have apart : l.kind ≠ .operator ∧ l.kind ≠ .bracket := by
          refine ⟨?_, ?_⟩ <;> (intro kind; rw [kind] at gap; cases gap)
        have zero : Token.shift ⟨start, l.kind, l.text⟩ = 0 := (shift_of_kind apart.2).1
        simp [Token.depthAfter, Token.is, apart.1, zero]
      rw [if_pos gap, same]
      exact later h
    · rw [if_neg gap]
      exact later (h.advance ⟨0, l.kind, l.text⟩)

/-- A type stays on its line and assigns nothing. -/
theorem flat_phrase {p : Char → Bool} {k : Category} (x : Phrase p k) :
    ∀ a ∈ x.atoms, Cleanup.isFlat a = true ∧ a ≠ .sign .assign := by
  induction x with
  | joined c left right ih ih' =>
    have sign : c.sign ≠ .assign := by cases c <;> decide
    intro a member
    simp only [atoms, List.mem_append, List.mem_cons, List.not_mem_nil, or_false] at member
    rcases member with (inLeft | rfl | rfl | rfl) | inRight
    · exact ih a inLeft
    · exact ⟨rfl, by simp⟩
    · exact ⟨rfl, by simpa using sign⟩
    · exact ⟨rfl, by simp⟩
    · exact ih' a inRight
  | @cons _ d x xs ih ih' =>
    have sign : d.sign ≠ .assign := by cases d <;> decide
    intro a member
    simp only [atoms, List.mem_append, List.mem_cons, List.not_mem_nil, or_false] at member
    rcases member with (first | rfl | rfl) | later
    · exact ih a first
    · exact ⟨rfl, by simpa using sign⟩
    · exact ⟨rfl, by simp⟩
    · exact ih' a later
  | _ => simp_all [atoms, arrow, Cleanup.isFlat, or_imp, forall_and]

theorem text_ne_assign {a : Atom} (h : a ≠ .sign .assign) : ∀ l ∈ a.lexemes, l.text ≠ ['='] := by
  intro l member
  cases a with
  | word w =>
    obtain rfl := List.mem_singleton.1 member
    exact w.text_ne_sign (by decide)
  | literal q =>
    obtain rfl := List.mem_singleton.1 member
    intro same
    have mark : q.mark = '=' := (List.cons.inj same).1
    rcases q.quote with quote | quote <;> rw [quote] at mark <;> cases mark
  | sign s =>
    obtain rfl := List.mem_singleton.1 member
    cases s <;> first | exact absurd rfl h | simp [Sign.text]
  | bracket b =>
    obtain rfl := List.mem_singleton.1 member
    cases b <;> simp [Bracket.char]
  | gap g =>
    obtain rfl := List.mem_singleton.1 member
    cases g <;> simp [Gap.text]
  | brace g =>
    cases g with
    | none =>
      obtain rfl := List.mem_singleton.1 member
      simp
    | some g =>
      rcases List.mem_cons.1 member with rfl | member
      · simp
      · obtain rfl := List.mem_singleton.1 member
        cases g <;> simp [Gap.text]
  | braces =>
    rcases List.mem_cons.1 member with rfl | member
    · simp
    · obtain rfl := List.mem_singleton.1 member
      simp

/-- An equals sign before a blank is an operator of its own, whatever follows it. -/
theorem exists_lex_assign (before : Option Char) (r : Text) :
    ∃ ls, Lexer.lex .code before ('=' :: ' ' :: r) = ⟨.operator, ['=']⟩ :: ls := by
  have heads : ∀ head ∈ Lexer.operandHeads, head ≠ [] ∧
      (head.head? = some '=' → head.tail ≠ [] → head.tail.head? ≠ some ' ') := by decide
  cases regex : Lexer.beforeRegex? .operator ['='] (' ' :: r) with
  | some s =>
    have read : Lexer.step .code before '=' (' ' :: r) = s := by
      simp [Lexer.step, Lexer.rules, Lexer.blockComment, Lexer.lineComment, Lexer.quoted, Lexer.sign,
        Lexer.after?_cons, Lexer.openerRegex, openers, Lexer.operatorRegex, Lexer.operandOperators,
        regex]
    obtain ⟨cut, -, rfl⟩ := Option.map_eq_some_iff.1 regex
    exact ⟨_, by rw [Lexer.lex_cons, read]; rfl⟩
  | none =>
    have quiet : Lexer.Quiet (Sign.text .assign ++ ' ' :: r) := by
      intro head member rest spelled
      obtain ⟨nonempty, short⟩ := heads head member
      obtain ⟨d, ds, rfl⟩ := List.exists_cons_of_ne_nil nonempty
      obtain ⟨rfl, behind⟩ := List.cons.inj spelled
      cases ds with
      | nil =>
        obtain rfl : ' ' :: r = rest := behind
        exact Option.map_eq_none_iff.1 regex
      | cons e ds =>
        obtain ⟨rfl, -⟩ := List.cons.inj behind
        exact absurd rfl (short rfl (by simp))
    obtain ⟨c, r', text, read⟩ :=
      step_sign before (Sign.endsBefore_of_head (s := .assign) (by simp)) quiet
    obtain ⟨rfl, rfl⟩ := List.cons.inj text
    exact ⟨_, Lexer.lex_of_step read⟩

/-- A type behind its colon. -/
def typing (type : SignatureType) : List Atom := [.sign .colon, .gap .space] ++ type.atoms

theorem typing_sound (type : SignatureType) : Sound (typing type) :=
  type.spans.sound_prepend (sound_of_isSound rfl) ⟨_, rfl, leads_gap _ _⟩

/-- A header reads a type behind its colon and stands at depth zero again. -/
theorem passes_typing (type : SignatureType) :
    ∃ h, Passes .start (typing type) h ∧ h.depth = 0 := by
  obtain ⟨h₁, colon, depth₁, previous⟩ := passes_sign (s := .colon) (h := .start) (by simp)
  have zero : h₁.depth = 0 := depth₁
  obtain ⟨h₂, inner, depth₂⟩ := passes_phrase type (h := h₁)
    (ready_of_previous (by omega) (by rw [previous]; decide))
  exact ⟨h₂, (colon.append (passes_gap .space h₁)).append inner, by omega⟩

/-- **The equals sign behind a type is found**, whatever stands behind it. -/
theorem find?_assign (type : SignatureType) (r : Text) :
    find? true ['='] 0 (spell (typing type) ++ ' ' :: '=' :: ' ' :: r) =
      some ((spell (typing type)).length + 1) := by
  have clear : Clear (' ' :: '=' :: ' ' :: r) :=
    (clear_of_blank (by decide)).2 (by rw [trimLeft_of_head rfl (by decide)]; simp)
  have meets : ∀ a ∈ (typing type).getLast?, Meets a (' ' :: '=' :: ' ' :: r) := by
    intro a last c head
    obtain ⟨z, final, closes⟩ := type.spans.last
    obtain rfl : z = a := by
      rw [typing, List.getLast?_append, show type.atoms.getLast? = some z from final] at last
      exact Option.some.inj last
    exact ⟨.gap .space, trails_gap .space z closes, (Option.some.inj head).symm⟩
  have other : ∀ l ∈ (typing type).flatMap lexemes, l.text ≠ ['='] := by
    intro l member
    obtain ⟨a, inside, found⟩ := List.mem_flatMap.1 member
    refine text_ne_assign ?_ l found
    rcases List.mem_append.1 inside with front | typed
    · simp only [List.mem_cons, List.not_mem_nil, or_false] at front
      rcases front with rfl | rfl <;> simp
    · exact (flat_phrase type a typed).2
  obtain ⟨last, read⟩ := lex_spell_append clear (typing_sound type) meets
  obtain ⟨ls, assign⟩ := exists_lex_assign none r
  obtain ⟨h, passes, zero⟩ := passes_typing type
  have blank : Lexer.lex .code last (' ' :: '=' :: ' ' :: r) =
      ⟨.blank, [' ']⟩ :: ⟨.operator, ['=']⟩ :: ls := by
    rw [lex_blanks (by decide)]
    exact congrArg _ assign
  have length : (Lexeme.spell ((typing type).flatMap lexemes)).length =
      (spell (typing type)).length := by rw [← spell_eq]
  have search := findFrom_through .start other 0
    (Lexeme.place (spell (typing type)).length (⟨.blank, [' ']⟩ :: ⟨.operator, ['=']⟩ :: ls))
  rw [← passes.reached, zero] at search
  rw [find?, tokens, read, blank, Lexeme.place_append, length, Nat.zero_add]
  exact search

/-! ### Opening lines -/

namespace Constant

theorem name?_word (w : Word) {r : Text} (stop : ∀ c ∈ r.head?, isNameChar c = false) :
    name? (w.text ++ r) = some (w.text, r) := by
  obtain ⟨taken, left⟩ := span_of_stop w.chars stop
  rw [Word.text, List.cons_append, name?, if_pos w.start, taken, left]

/-- The opening line of a constant, read from the name on. -/
theorem header_of_first {t r : Text} {c : Char}
    (first : trim ((lines (trim t)).headD []) = "export const ".toList ++ r)
    (head : r.head? = some c) (solid : isBlank c = false) : header t = r := by
  have found : ((afterExport? ("export const ".toList ++ r)).bind
      (afterSpaced? "const".toList)).getD ("export const ".toList ++ r) = trimLeft r := rfl
  have same : ((lines (trim t)).map trim).headD [] = "export const ".toList ++ r := by
    rw [← first]
    cases lines (trim t) <;> rfl
  rw [header, same, found, trimLeft_of_head head solid]

theorem trim_phrase {p : Char → Bool} {k : Category} (x : Phrase p k) :
    trim (spell x.atoms) = spell x.atoms := by
  obtain ⟨a, head, opening⟩ := x.spans.head
  obtain ⟨c, last, final⟩ := x.spans.last_char
  have first : (spell x.atoms).head? = some a.first := by
    obtain ⟨rest, same⟩ := List.head?_eq_some_iff.1 head
    rw [same]
    exact spell_head a rest
  exact trim_of_ends first last (a.first_class.2.1.trans (isGap_of_opens opening))
    (isBlank_of_isFinal final)

/-- The opening line of an annotated constant gives its name, its type and its initializer. -/
theorem read?_typed (name : Word) (type : SignatureType) (r : Text) :
    Opening.read? (name.text ++ (spell (typing type) ++ ' ' :: '=' :: ' ' :: r)) =
      some ⟨name.text, spell type.atoms, trim r⟩ := by
  have written : spell (typing type) = ':' :: ' ' :: spell type.atoms := rfl
  have named : name? (name.text ++ (spell (typing type) ++ ' ' :: '=' :: ' ' :: r)) =
      some (name.text, spell (typing type) ++ ' ' :: '=' :: ' ' :: r) := by
    refine name?_word name fun c head => ?_
    obtain rfl : ':' = c := Option.some.inj head
    decide
  have typed : trimLeft ((spell (typing type) ++ ' ' :: '=' :: ' ' :: r).take
      ((spell (typing type)).length + 1)) = ':' :: ' ' :: (spell type.atoms ++ [' ']) := by
    rw [List.take_length_add_append]
    exact trimLeft_of_head (c := ':') rfl (by decide)
  have left : (spell (typing type) ++ ' ' :: '=' :: ' ' :: r).drop
      ((spell (typing type)).length + 1 + 1) = ' ' :: r := by
    rw [Nat.add_assoc, List.drop_length_add_append]
    rfl
  have annotation : trim (trimRightBy (· == ';') (trim (' ' :: (spell type.atoms ++ [' '])))) =
      spell type.atoms := by
    rw [trim_space, trim_append_blank (by decide), trim_phrase, ← trim_trimRight,
      Canonical.trimRight_unended type.spans, trim_phrase]
  simp only [Opening.read?, named, Option.map_some, find?_assign, Option.getD_some, typed, left,
    trim_space]
  exact congrArg (fun t => some (Opening.mk name.text t (trim r))) annotation

/-- What stands on the first line of a text, up to the blanks at its end. -/
theorem exists_first_line {front e : Text} {c d : Char} (free : '\n' ∉ front)
    (front_head : front.head? = some d) (front_solid : isBlank d = false) (head : e.head? = some c)
    (solid : isBlank c = false) :
    ∃ line : Text, line.head? = some c ∧ trim line = line ∧
      trim ((lines (trim (front ++ e))).headD []) = front ++ line := by
  have trimmed {r : Text} (first : r.head? = some c) : trim (front ++ r) = front ++ trimRight r := by
    have left : trimLeft (front ++ r) = front ++ r :=
      trimLeft_of_head (by rw [List.head?_append, front_head]; rfl) front_solid
    rw [trim, left, trimRight_append_of_ne_nil front
      (trimRight_ne_nil (List.mem_of_head? first) solid)]
  have first : ((lines (trimRight e)).headD []).head? = some c := by
    obtain ⟨r, kept⟩ := List.head?_eq_some_iff.1 (head?_trimRight head solid)
    have stays : '\n' ∉ [c] := by
      intro feed
      rw [← List.mem_singleton.1 feed] at solid
      exact absurd solid (by decide)
    rw [kept, lines, ← List.singleton_append, headD_pieces_append stays]
    rfl
  have line := head?_trimRight first solid
  refine ⟨trimRight ((lines (trimRight e)).headD []), line, ?_, ?_⟩
  · rw [trim, trimLeft_of_head line solid, trimRight_trimRight]
  · rw [trimmed head, lines, headD_pieces_append free]
    exact trimmed first

/-- A constant with an annotation as it is written in a source, up to its initializer. -/
def annotated (name : Word) (type : SignatureType) : Text :=
  "export const ".toList ++ name.text ++ ": ".toList ++ spell type.atoms ++ " = ".toList

theorem annotated_eq (name : Word) (type : SignatureType) : annotated name type =
    "export const ".toList ++ name.text ++ ": ".toList ++ spell type.atoms ++ " = ".toList := rfl

theorem feed_free_annotated (name : Word) (type : SignatureType) : '\n' ∉ annotated name type := by
  have typed : '\n' ∉ spell type.atoms :=
    Cleanup.feed_free_spell fun a member => (flat_phrase type a member).1
  have named : '\n' ∉ name.text := fun member => absurd (name.all_chars _ member) (by decide)
  have words : '\n' ∉ "export const ".toList ∧ '\n' ∉ ": ".toList ∧ '\n' ∉ " = ".toList := by decide
  simp only [annotated_eq, List.mem_append, not_or]
  exact ⟨⟨⟨⟨words.1, named⟩, words.2.1⟩, typed⟩, words.2.2⟩

theorem annotated_append (name : Word) (type : SignatureType) (r : Text) :
    annotated name type ++ r =
      "export const ".toList ++ (name.text ++ (spell (typing type) ++ ' ' :: '=' :: ' ' :: r)) := by
  have typed : ": ".toList ++ (spell type.atoms ++ (" = ".toList ++ r)) =
      spell (typing type) ++ ' ' :: '=' :: ' ' :: r := rfl
  simp only [annotated_eq, List.append_assoc]
  exact congrArg (fun t => "export const ".toList ++ (name.text ++ t)) typed

/-- What is read of an annotated constant: the initializer up to the end of its line. -/
theorem exists_read?_annotated (name : Word) (type : SignatureType) {e : Text} {c : Char}
    (head : e.head? = some c) (solid : isBlank c = false) :
    ∃ line : Text, line.head? = some c ∧ Opening.read? (header (annotated name type ++ e)) =
      some ⟨name.text, spell type.atoms, line⟩ := by
  have front : (annotated name type).head? = some 'e' := rfl
  obtain ⟨line, first, kept, opening⟩ :=
    exists_first_line (feed_free_annotated name type) front (by decide) head solid
  rw [annotated_append name type line] at opening
  have named : (name.text ++ (spell (typing type) ++ ' ' :: '=' :: ' ' :: line)).head? =
      some name.first := rfl
  have opened := header_of_first opening named (isBlank_of_isNameStart name.start)
  exact ⟨line, first, by rw [opened, read?_typed, kept]⟩

/-- **The annotation of a constant is kept as it is written**, whatever the initializer; an object
literal keeps its members behind it. -/
theorem annotation_kept (unit : Text) (name : Word) (type : SignatureType) {e : Text}
    (solid : ∃ c ∈ e.head?, isBlank c = false) :
    (e.head? ≠ some '{' → (ambient unit (annotated name type ++ e)).value =
      head name.text (spell type.atoms) ++ [';']) ∧
    (e.head? = some '{' → head name.text (spell type.atoms) ++ " \x7b".toList <+:
      (ambient unit (annotated name type ++ e)).value) := by
  obtain ⟨c, first, solid⟩ := solid
  obtain ⟨line, same, read⟩ := exists_read?_annotated name type first solid
  have nonempty : spell type.atoms ≠ [] := by
    obtain ⟨d, last, -⟩ := type.spans.last_char
    intro none
    rw [none] at last
    cases last
  obtain ⟨r, rfl⟩ := List.head?_eq_some_iff.1 same
  rw [show e.head? = some c from first, ambient_value, read]
  refine ⟨fun other => ?_, fun brace => ?_⟩
  · have plain : startsWith ['{'] (c :: r) = false := by
      have apart : '{' ≠ c := fun same => other (congrArg some same.symm)
      simp [startsWith, List.isPrefixOf, apart]
    simp only [plain, valueType, nonempty, ne_eq, not_false_eq_true, ↓reduceIte, Bool.false_eq_true]
  · obtain rfl : c = '{' := Option.some.inj brace
    have object : startsWith ['{'] ('{' :: r) = true := rfl
    simp only [object, literalType, nonempty, ↓reduceIte]
    rw [List.append_assoc, List.append_assoc, List.prefix_append_right_inj]
    exact ⟨_, rfl⟩

/-- An arrow and a pair of angle signs before the equals sign, and a regular expression behind it. -/
theorem annotation_kept_before_regex :
    let parse : Word := ⟨'p', "arse".toList, by decide, by decide⟩
    let text : Word := ⟨'t', "ext".toList, by decide, by decide⟩
    let result : SignatureType := .generic ⟨'S', "et".toList, by decide, by decide⟩
      (.single (.unnamed (.name text)))
    let type : SignatureType := .function (.single (.named text (.keyof (.name text)))) result
    let e : Text := "/=[^=]/.exec(\x7b\n\x7d)".toList
    annotated parse type = "export const parse: (text: keyof text) => Set<text> = ".toList ∧
      (∃ c ∈ e.head?, isBlank c = false) ∧ e.head? ≠ some '{' ∧
      (ambient "  ".toList (annotated parse type ++ e)).value =
        head parse.text (spell type.atoms) ++ [';'] := by
  intro parse text result type e
  have solid : ∃ c ∈ e.head?, isBlank c = false := ⟨'/', rfl, by decide⟩
  have value : e.head? ≠ some '{' := by decide
  exact ⟨by decide, solid, value, (annotation_kept "  ".toList parse type solid).1 value⟩

end Constant

end Ambient
