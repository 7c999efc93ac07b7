import Ambient.Declaration.Form
import Ambient.Import
import Ambient.Proofs.Canonical

/-!
Statements in declaration form are written as they are: imports are normalized to themselves, and
the ambient form of a declaration is the declaration, up to what tidying takes back.
-/

namespace Ambient

namespace Canonical

open Atom Cleanup Phrase

/-! ### Opening words -/

/-- A text of solid characters up to one that `word` does not have does not start with `word` and a
blank. -/
theorem afterSpaced?_of_solid {word w r : Text} {c : Char} (stop : isBlank c = false)
    (foreign : c ∉ word) (solid : ∀ d ∈ w, isBlank d = false) :
    afterSpaced? word (w ++ c :: r) = none := by
  induction word generalizing w with
  | nil =>
    cases w with
    | nil => simp [afterSpaced?, after?, afterBlanks?, stop]
    | cons d w => simp [afterSpaced?, after?, afterBlanks?, solid d (by simp)]
  | cons x xs ih =>
    cases w with
    | nil =>
      have other : x ≠ c := fun same => foreign (by simp [same])
      simp [afterSpaced?, after?, other]
    | cons d w =>
      have later := ih (w := w) (fun member => foreign (by simp [member]))
        fun e member => solid e (by simp [member])
      by_cases same : x = d
      · simpa [afterSpaced?, after?, same] using later
      · simp [afterSpaced?, after?, same]

theorem afterSpaced?_word (word : Text) (w : Word) : afterSpaced? word w.text = none := by
  cases found : after? word w.text with
  | none => rw [afterSpaced?, found]; rfl
  | some r =>
    have split := after?_eq_some_iff.1 found
    rw [afterSpaced?, found]
    cases r with
    | nil => rfl
    | cons c r =>
      have solid : isBlank c = false :=
        isBlank_of_isNameChar (w.all_chars c (by rw [split]; simp))
      simp [afterBlanks?, solid]

/-- A sign is not read at the head of a name. -/
theorem after?_of_word {c : Char} (sign : isNameStart c = false) (w : Word) (r : Text) :
    after? [c] (trimLeft (' ' :: (w.text ++ r))) = none := by
  have skipped : trimLeft (w.text ++ r) = w.text ++ r :=
    trimLeft_of_head (c := w.first) rfl (isBlank_of_isNameStart w.start)
  have other : c ≠ w.first := by
    rintro rfl
    rw [w.start] at sign
    cases sign
  rw [trimLeft_space, skipped, Word.text, List.cons_append, after?, if_neg other]

theorem trim_word (w : Word) : trim w.text = w.text := by
  obtain ⟨c, last⟩ : ∃ c, w.text.getLast? = some c := ⟨_, List.getLast?_cons⟩
  have solid : isBlank c = false := isBlank_of_isNameChar (w.all_chars c (List.mem_of_getLast? last))
  exact trim_of_ends rfl last (isBlank_of_isNameStart w.start) solid

/-! ### Imports -/

section
open Ambient.Import

theorem namesAndSource?_of_free {r : Text} (h : '}' ∉ r) : namesAndSource? r = none := by
  induction r with
  | nil => rfl
  | cons c r ih =>
    have other : c ≠ '}' := fun same => h (by simp [same])
    rw [namesAndSource?, ih fun member => h (by simp [member])]
    exact if_neg other

theorem namesAndSource?_of_last {r source : Text} (h : '}' ∉ r) (found : source? r = some source)
    (w : Text) : namesAndSource? (w ++ '}' :: r) = some (w, source) := by
  induction w with
  | nil =>
    rw [List.nil_append, namesAndSource?, namesAndSource?_of_free h, found]
    rfl
  | cons c w ih => rw [List.cons_append, namesAndSource?, ih]

/-- The blanks and names between the braces. -/
def inner (first : Word) (more : List Word) : List Atom :=
  [.gap .space] ++ (names first more).atoms ++ [.gap .space]

theorem spell_braced (first : Word) (more : List Word) :
    spell (braced first more) = '{' :: (spell (inner first more) ++ ['}']) := by
  simp [braced, inner, Bracket.char]

/-- The first name in a list of names. -/
theorem split_inner (first : Word) (more : List Word) :
    ∃ rest, Nesting.split false [','] (spell (inner first more)) = first.text :: rest := by
  have sound : Sound (inner first more) :=
    (spans_names first more).sound_between (.singleton _) (.singleton _) ⟨_, rfl, leads_gap _ _⟩
      ⟨_, rfl, trails_gap _⟩
  have start (ts : List Token) :
      Nesting.partsFrom false [','] 0 []
          (⟨0, .blank, [' ']⟩ :: ⟨1, first.kind, first.text⟩ :: ts) =
        Nesting.partsFrom false [','] 0 (' ' :: first.text) ts := by
    have word : (first.text == [',']) = false := by simpa using first.text_ne_sign (by decide)
    have blank : Token.shift ⟨0, .blank, [' ']⟩ = 0 := rfl
    simp [Nesting.partsFrom, Token.isTop, word, Token.depthAfter, shift_word, blank]
  obtain ⟨w, parts, blank, cut⟩ : ∃ w parts, (∀ c ∈ w, isBlank c = true) ∧
      Nesting.partsFrom false [','] 0 [] (Lexeme.place 0 ((inner first more).flatMap lexemes)) =
        (' ' :: (first.text ++ w)) :: parts := by
    cases more with
    | nil => exact ⟨[' '], [], by decide, start _⟩
    | cons w ws => exact ⟨[], _, by simp, by rw [List.append_nil]; exact start _⟩
  have trimmed : trim (' ' :: (first.text ++ w)) = first.text := by
    rw [trim_space, trim_append_blank blank, trim_word]
  refine ⟨(parts.map trim).filter (· != []), ?_⟩
  rw [Nesting.split, tokens_spell sound, cut, List.map_cons, trimmed]
  exact List.filter_cons_of_pos rfl

theorem source?_spell (path : ModulePath) :
    source? (spell (source path)) = some path.quotation.text := by
  have spelled : spell (source path) = " from".toList ++ ' ' :: path.quotation.text := by
    simp [source, Gap.text, Word.text, Word.fromWord]
  have solid : isBlank path.quotation.mark = false := by
    rcases path.quotation.quote with mark | mark <;> rw [mark] <;> decide
  have found : source? (" from".toList ++ ' ' :: path.quotation.text) =
      if trimLeft (' ' :: path.quotation.text) = [] then none
      else some (trimLeft (' ' :: path.quotation.text)) := rfl
  have trimmed : trimLeft path.quotation.text = path.quotation.text := trimLeft_of_head rfl solid
  rw [spelled, found, trimLeft_space, trimmed]
  exact if_neg (by simp [Quotation.text])

theorem brace_free_source (path : ModulePath) : '}' ∉ spell (source path) := by
  have marks : path.quotation.mark ≠ '}' := by
    rcases path.quotation.quote with mark | mark <;> rw [mark] <;> decide
  have inside : '}' ∉ path.quotation.body := fun member =>
    not_sign_of_isPathChar (path.chars _ member) (by decide)
  simp [source, Gap.text, Word.text, Word.fromWord, Quotation.text, Ne.symm marks, inside]

theorem normalize_of_unnamed {t : Text} (trimmed : trim t = t) (unnamed : named? t = none) :
    Import.normalize t = t := by
  rw [Import.normalize, trimmed, unnamed]
  exact ite_self t

/-- **Imports in declaration form are kept.** -/
theorem normalize_spell (i : Import) : Import.normalize (spell i.atoms) = spell i.atoms := by
  have trimmed : trim (spell i.atoms) = spell i.atoms := i.whole.settles.trim_eq
  cases i with
  | default name path =>
    refine normalize_of_unnamed trimmed ?_
    have spelled : spell (Import.default name path).atoms =
        "import".toList ++ ' ' :: (name.text ++ spell (source path)) := by
      simp [Import.atoms, Gap.text, Word.text, Word.importWord]
    rw [spelled, named?, Lexer.after?_append, Option.bind_some, after?_of_word (by decide)]
    rfl
  | module name path => exact normalize_of_unnamed trimmed rfl
  | named first more path =>
    have read : named? (spell (Import.named first more path).atoms) =
        some (spell (inner first more), path.quotation.text) := by
      have spelled : spell (Import.named first more path).atoms = "import ".toList ++
          '{' :: (spell (inner first more) ++ '}' :: spell (source path)) := by
        simp [Import.atoms, spell_braced, Gap.text, Word.text, Word.importWord]
      have opened (t : Text) : named? ("import ".toList ++ '{' :: t) = namesAndSource? t := rfl
      rw [spelled, opened, namesAndSource?_of_last (brace_free_source path) (source?_spell path)]
    have kept : typeImport? (Nesting.split false [','] (spell (inner first more)))
        path.quotation.text = none := by
      obtain ⟨rest, cut⟩ := split_inner first more
      have notType : typeOnly? first.text = none := afterSpaced?_word _ first
      simp [typeImport?, cut, notType]
    simp only [Import.normalize, trimmed, read, Option.bind_some, kept, Option.getD_none, ite_self]
  | types first more path =>
    have types : (afterSpaced? "import".toList (spell (Import.types first more path).atoms)).any
        (Import.normalize.startsWithType ·) = true := rfl
    rw [Import.normalize, trimmed, if_pos types]

end

/-! ### Semicolons -/

/-- A statement without a semicolon at its end is left as it is. -/
theorem trimRight_unended {named : Bool} {as : List Atom} (h : Spans named as) :
    trimRight (trimRightBy (· == ';') (spell as)) = spell as := by
  obtain ⟨c, last, final⟩ := h.last_char
  have other : (c == ';') = false := by
    rw [beq_eq_false_iff_ne]
    rintro rfl
    cases final
  rw [trimRightBy_of_getLast last other, trimRight_of_getLast last (isBlank_of_isFinal final)]

/-- The semicolon at the end of a statement is taken away. -/
theorem trimRight_ended {named : Bool} {as : List Atom} (h : Spans named as) :
    trimRight (trimRightBy (· == ';') (spell (as ++ [.sign .semicolon]))) = spell as := by
  have cut : trimRightBy (· == ';') (spell as ++ [';']) = trimRightBy (· == ';') (spell as) := by
    simp [trimRightBy]
  rw [spell_append, show spell [.sign .semicolon] = [';'] from rfl, cut, trimRight_unended h]

theorem ambientDefault_spell (name : Word) :
    ambientDefault (spell (defaultExport name)) = spell (defaultExport name) := by
  rw [ambientDefault, (whole_defaultExport name).settles.trim_eq, defaultExport,
    trimRight_ended (spans_defaultBody name), spell_append]
  rfl

/-! ### Functions -/

theorem passes_declaring (kind : Word) (h : Nesting.Header) :
    ∃ h', Passes h (declaring kind) h' ∧ h'.depth = h.depth := by
  obtain ⟨h₁, exporting, depth₁, -⟩ := passes_word .exportWord h
  obtain ⟨h₂, declaring, depth₂, -⟩ := passes_word .declareWord h₁
  obtain ⟨h₃, naming, depth₃, -⟩ := passes_word kind h₂
  refine ⟨h₃, ?_, by omega⟩
  exact (exporting.append (passes_gap .space h₁)).append
    ((declaring.append (passes_gap .space h₂)).append (naming.append (passes_gap .space h₃)))

/-- A function in declaration form has no body. -/
theorem bodyBrace?_function (name : Word) (params : Params) (result : Ty) :
    Nesting.bodyBrace? (spell (Declaration.function name params result).atoms) = none := by
  obtain ⟨h₁, words, depth₁⟩ := passes_declaring .functionWord .start
  obtain ⟨h₂, named, depth₂, -⟩ := passes_word name h₁
  obtain ⟨h₃, opening, depth₃⟩ := passes_bracket .openParen h₂
  have zero : h₁.depth = 0 := depth₁
  simp only [shift] at depth₃
  obtain ⟨h₄, inner, depth₄⟩ := passes_params params (h := h₃) (by omega)
  obtain ⟨h₅, closing, depth₅⟩ := passes_bracket .closeParen h₄
  obtain ⟨h₆, colon, depth₆, previous⟩ := passes_sign (s := .colon) (h := h₅) (by simp)
  simp only [shift, angleShift] at depth₅ depth₆
  have ready : Ready h₆ := ready_of_previous (by omega) (by rw [previous]; decide)
  obtain ⟨h₇, type, -⟩ := passes_phrase result ready
  obtain ⟨h₈, semicolon, -⟩ := passes_sign (s := .semicolon) (h := h₇) (by simp)
  have signed : Passes h₁ (signature name params) h₅ :=
    ((named.append opening).append inner).append closing
  have passes : Passes .start (Declaration.function name params result).atoms h₈ :=
    (((words.append signed).append (colon.append (passes_gap .space h₆))).append type).append
      semicolon
  have whole := passes.run 0 []
  rw [List.append_nil] at whole
  rw [Nesting.bodyBrace?, tokens_spell (Declaration.function name params result).whole.sound, whole]
  rfl

theorem spell_declaring (kind : Word) (as : List Atom) :
    spell (declaring kind ++ as) = "export declare ".toList ++ (kind.text ++ ' ' :: spell as) := by
  simp [declaring, Gap.text, Word.text, Word.exportWord, Word.declareWord]

/-- A signature in declaration form stands for itself, without the words before it. -/
theorem withoutStar_spell (name : Word) (rest : List Atom) :
    Function.withoutStar (Function.withoutModifiers
        (spell (declaring .functionWord ++ .word name :: rest))) =
      "function".toList ++ ' ' :: spell (.word name :: rest) := by
  have unmodified (t : Text) : Function.withoutModifiers
      ("export declare ".toList ++ (Word.functionWord.text ++ ' ' :: t)) =
        "function".toList ++ ' ' :: t := rfl
  rw [spell_declaring, unmodified, Function.withoutStar, Lexer.after?_append, Option.bind_some,
    spell_cons, text_word, after?_of_word (by decide)]

theorem ambient_function (name : Word) (params : Params) (result : Ty) :
    Function.ambient (spell (Declaration.function name params result).atoms) =
      spell (Declaration.function name params result).atoms := by
  obtain ⟨rest, split⟩ : ∃ rest, Declaration.functionBody name params result =
      declaring .functionWord ++ .word name :: rest := ⟨_, rfl⟩
  have trimmed := (Declaration.function name params result).whole.settles.trim_eq
  have cut : Function.signature (spell (Declaration.function name params result).atoms) =
      spell (declaring .functionWord ++ .word name :: rest) := by
    rw [Function.signature, bodyBrace?_function, Option.getD_none, List.take_length, trimmed,
      Declaration.atoms, trimRight_ended (Declaration.spans_functionBody name params result), split]
  have spelled : spell (Declaration.function name params result).atoms =
      "export declare ".toList ++ ("function".toList ++ ' ' :: spell (.word name :: rest)) ++
        [';'] := by
    rw [Declaration.atoms, split, spell_append, spell_declaring]
    rfl
  unfold Function.ambient
  rw [trimmed, cut, withoutStar_spell, spelled]

/-! ### Interfaces -/

theorem findFrom_named (name : Word) (n : Nat) (ts : List Token) :
    Nesting.findFrom true ['{'] 0 0 (⟨0, name.kind, name.text⟩ :: ⟨n, .blank, [' ']⟩ ::
      ⟨n + 1, .bracket, ['{']⟩ :: ts) = some (n + 1) := by
  have word : (name.text == ['{']) = false := by simpa using name.text_ne_sign (by decide)
  have solid : (name.kind == .operator) = false := by
    rcases name.kind_eq with kind | kind <;> rw [kind] <;> decide
  have found : Nesting.findFrom true ['{'] 0 0
      (⟨n, .blank, [' ']⟩ :: ⟨n + 1, .bracket, ['{']⟩ :: ts) = some (n + 1) := rfl
  simpa [Nesting.findFrom, Token.isTop, word, Token.depthAfter, Token.is, solid, shift_word] using found

/-- The brace that an interface opens with stands right after the name. -/
theorem find?_name (name : Word) {b : Atom} (opens : b = .brace none ∨ b = .braces) :
    Nesting.find? true ['{'] 0 (spell [.word name, .gap .space, b]) =
      some (name.text.length + 1) := by
  have sound : Sound [.word name, .gap .space, b] := by
    rcases opens with rfl | rfl <;> exact sound_of_isSound rfl
  rw [Nesting.find?, tokens_spell sound]
  rcases opens with rfl | rfl
  · exact (findFrom_named name _ _).trans (by simp)
  · exact (findFrom_named name _ _).trans (by simp)

theorem header_spell (name : Word) (as : List Atom) :
    Interface.header (spell (declaring .interfaceWord ++ .word name :: as)) =
      spell (.word name :: as) := by
  have found (t : Text) : Interface.header ("export declare ".toList ++
      (Word.interfaceWord.text ++ ' ' :: t)) = trimLeft t := rfl
  rw [spell_declaring, found]
  exact trimLeft_of_head (spell_head _ _) (isBlank_of_isNameStart name.start)

/-- The name and the member lines of an interface. -/
theorem parts_spell (name : Word) {b : Atom} (opens : b = .brace none ∨ b = .braces)
    (more : List Text) :
    Interface.parts (spell (declaring .interfaceWord ++ [.word name, .gap .space, b]) :: more) =
      (name.text,
        if more = [] then Interface.inlineMembers (b.text.drop 1)
        else (if trim (b.text.drop 1) = [] then [] else [b.text.drop 1]) ++
          interior ([] :: more)) := by
  have trimmed : trim (spell (declaring .interfaceWord ++ [.word name, .gap .space, b])) =
      spell (declaring .interfaceWord ++ [.word name, .gap .space, b]) := by
    have last : ∃ c, (spell (declaring .interfaceWord ++ [.word name, .gap .space, b])).getLast? =
        some c ∧ isBlank c = false := by
      have split : declaring .interfaceWord ++ [.word name, .gap .space, b] =
        (declaring .interfaceWord ++ [.word name, .gap .space]) ++ [b] := by simp
      rw [split, spell_last]
      rcases opens with rfl | rfl
      · exact ⟨'{', rfl, by decide⟩
      · exact ⟨'}', rfl, by decide⟩
    obtain ⟨c, last, solid⟩ := last
    exact trim_of_ends (c := 'e') rfl last (by decide) solid
  have spelled : spell [.word name, .gap .space, b] = (name.text ++ [' ']) ++ b.text := by
    simp [Gap.text]
  have length : (name.text ++ [' ']).length = name.text.length + 1 := by simp
  have before : trim ((spell [.word name, .gap .space, b]).take (name.text.length + 1)) =
      name.text := by
    rw [spelled, ← length, List.take_left, trim_append_blank (w := [' ']) (by decide), trim_word]
  have behind : (spell [.word name, .gap .space, b]).drop (name.text.length + 1 + 1) =
      b.text.drop 1 := by
    rw [spelled, ← length, ← List.drop_drop, List.drop_left]
  simp only [Interface.parts, List.headD_cons, trimmed, header_spell, find?_name name opens, before,
    behind, List.length_cons, Nat.add_eq_right, List.length_eq_zero_iff]
  rfl

/-- The first line of a member list stands at the level reached, and leaves it as it is. -/
theorem levelsFrom_member (f : Field) {start : Nat} {sep : List Lexeme} {rest : List Token}
    (ends : sep = [] ∨ sep = [⟨.blank, ['\n']⟩])
    (behind : ∀ t ∈ rest, start + (spell f.atoms).length + 1 ≤ t.start) (ls : List Text) :
    Nesting.levelsFrom 1 start (Lexeme.place start (f.atoms.flatMap lexemes ++ sep) ++ rest)
        (spell f.atoms :: ls) =
      (1, spell f.atoms) ::
        Nesting.levelsFrom 1 (start + (spell f.atoms).length + 1) rest ls := by
  have inside : ∀ t ∈ Lexeme.place start (f.atoms.flatMap lexemes ++ sep),
      decide (t.start < start + (spell f.atoms).length + 1) = true := by
    intro t member
    rw [Lexeme.place_append, ← spell_eq] at member
    rcases List.mem_append.1 member with member | member
    · have bound := (Lexeme.start_of_mem_place member).2
      rw [← spell_eq] at bound
      simpa using Nat.lt_succ_of_le bound
    · rcases ends with rfl | rfl
      · cases member
      · rw [List.mem_singleton.1 member]
        simp
  have stop : ∀ t ∈ rest.head?, decide (t.start < start + (spell f.atoms).length + 1) = false := by
    intro t head
    have bound := behind t (List.mem_of_head? head)
    simpa using bound
  obtain ⟨taken, left⟩ := span_of_stop inside stop
  have opening : ((Lexeme.place start (f.atoms.flatMap lexemes ++ sep)).any fun t =>
      t.start == start && t.isCloser) = false := by
    refine List.any_eq_false.2 fun t member => ?_
    obtain ⟨name, more, split⟩ : ∃ (name : Word) (more : List Lexeme),
        f.atoms.flatMap lexemes ++ sep = ⟨name.kind, name.text⟩ :: more := by
      cases f with
      | named name type => exact ⟨name, _, rfl⟩
    rw [split, Lexeme.place] at member
    rcases List.mem_cons.1 member with rfl | later
    · rcases name.kind_eq with kind | kind <;> simp [Token.isCloser, kind]
    · have bound : start + name.text.length ≤ t.start := (Lexeme.start_of_mem_place later).1
      have positive : 0 < name.text.length := Nat.succ_pos _
      have other : t.start ≠ start := by omega
      simp [other]
  have balance : balanceOf Token.shift (Lexeme.place start (f.atoms.flatMap lexemes ++ sep)) = 0 := by
    rw [Lexeme.place_append, balanceOf_append, (balance_place f.atoms start).1, f.total_shift.1]
    rcases ends with rfl | rfl <;> rfl
  simp only [Nesting.levelsFrom, taken, left, opening, balance]
  rfl

theorem levelsFrom_members (first : Field) (more : List Field) (start : Nat) :
    Nesting.levelsFrom 1 start
        (Lexeme.place start ((members .feed first more).flatMap lexemes))
        ((first :: more).map (spell ·.atoms)) =
      (first :: more).map fun f => (1, spell f.atoms) := by
  induction more generalizing first start with
  | nil =>
    have here : Nesting.levelsFrom 1 start
        (Lexeme.place start (first.atoms.flatMap lexemes ++ []) ++ []) [spell first.atoms] =
          [(1, spell first.atoms)] := levelsFrom_member first (.inl rfl) (by simp) []
    rw [List.append_nil, List.append_nil] at here
    exact here
  | cons f fs ih =>
    have placed : Lexeme.place start ((members .feed first (f :: fs)).flatMap lexemes) =
        Lexeme.place start (first.atoms.flatMap lexemes ++ [⟨.blank, ['\n']⟩]) ++
          Lexeme.place (start + (spell first.atoms).length + 1)
            ((members .feed f fs).flatMap lexemes) := by
      have split : (members .feed first (f :: fs)).flatMap lexemes =
          (first.atoms.flatMap lexemes ++ [⟨.blank, ['\n']⟩]) ++
            (members .feed f fs).flatMap lexemes := by simp [members, lexemes, Gap.text]
      have length : (Lexeme.spell (first.atoms.flatMap lexemes ++ [⟨.blank, ['\n']⟩])).length =
          (spell first.atoms).length + 1 := by
        rw [spell_eq]
        simp [Lexeme.spell]
      rw [split, Lexeme.place_append, length, ← Nat.add_assoc]
    rw [placed, List.map_cons, levelsFrom_member first (.inr rfl) (fun t member =>
      (Lexeme.start_of_mem_place member).1), ih]
    rfl

theorem joinLines_spell (first : Field) (more : List Field) :
    joinLines ((first :: more).map (spell ·.atoms)) = spell (members .feed first more) := by
  induction more generalizing first with
  | nil => simp [members]
  | cons f fs ih =>
    rw [List.map_cons, joinLines, joinPieces_cons_of_ne_nil _ _ (by simp), ← joinLines, ih]
    simp [members, Gap.text]

theorem trim_memberLine (f : Field) : trim (Declaration.memberLine f) = spell f.atoms := by
  have spans : Spans true f.atoms := f.spans
  obtain ⟨c, last, final⟩ := spans.last_char
  rw [Declaration.memberLine, trim_space, trim_space]
  cases f with
  | named name type =>
    exact trim_of_ends (spell_head _ _) last (isBlank_of_isNameStart name.start)
      (isBlank_of_isFinal final)

theorem levels_members (first : Field) (more : List Field) :
    Nesting.levels 1 ((first :: more).map Declaration.memberLine) =
      (first :: more).map fun f => (1, spell f.atoms) := by
  have lines : (((first :: more).map Declaration.memberLine).map trim).filter (· != []) =
      (first :: more).map (spell ·.atoms) := by
    have trimmed : ((first :: more).map Declaration.memberLine).map trim =
        (first :: more).map (spell ·.atoms) := by
      rw [List.map_map]
      exact List.map_congr_left fun f _ => trim_memberLine f
    rw [trimmed, List.filter_eq_self]
    intro t member
    obtain ⟨f, -, rfl⟩ := List.mem_map.1 member
    cases f with
    | named name type => rfl
  rw [Nesting.levels, lines, joinLines_spell, tokens_spell (spans_members .feed first more).sound,
    levelsFrom_members]

theorem memberLine_spell (f : Field) :
    Interface.memberLine "  ".toList 1 (spell f.atoms) = Declaration.memberLine f := by
  have plain : startsWith ['*'] (spell f.atoms) = false := by
    cases f with
    | named name type =>
      have other : '*' ≠ name.first := by
        intro same
        have start := name.start
        rw [← same] at start
        cases start
      simp [startsWith, List.isPrefixOf, Phrase.atoms, Word.text, other]
  rw [Interface.memberLine, plain]
  rfl

/-- The lines between the opening and the closing brace. -/
theorem interior_concat (first : Text) (ls : List Text) : interior (first :: (ls ++ [['}']])) = ls := by
  have closing : startsWith ['}'] (trim ['}']) = true := rfl
  simp [interior, closing]

theorem ambient_interface (name : Word) (first : Field) (more : List Field) :
    Interface.ambient "  ".toList (spell (Declaration.interface name first more).atoms) =
      spell (Declaration.interface name first more).atoms := by
  have trimmed := (Declaration.interface name first more).whole.settles.trim_eq
  have cut : lines (spell (Declaration.interface name first more).atoms) =
      (Declaration.interface name first more).lines := by
    rw [← Declaration.joinLines_lines]
    exact pieces_joinPieces (by simp [Declaration.lines]) (Declaration.feed_free_lines _)
  have parts : Interface.parts (Declaration.interface name first more).lines =
      (name.text, (first :: more).map Declaration.memberLine) := by
    refine (parts_spell name (.inl rfl) ((first :: more).map Declaration.memberLine ++ [['}']])).trans ?_
    rw [interior_concat, if_neg (by simp)]
    rfl
  have split : (Declaration.interface name first more).atoms = declaring .interfaceWord ++
      ([.word name, .gap .space, .brace (some .indent)] ++ members .indent first more ++
        [.gap .feed, .bracket .closeBrace]) := by simp [Declaration.atoms]
  unfold Interface.ambient
  simp only [trimmed, cut, parts, levels_members, List.map_map, Function.comp_def, memberLine_spell,
    Declaration.joinLines_members]
  rw [split, spell_declaring]
  simp [Gap.text, Bracket.char, Word.text, Word.interfaceWord]

/-- An interface without members is written with its braces apart. -/
theorem ambient_marker (indentUnit : Text) (name : Word) :
    Settles (Interface.ambient indentUnit (spell (Declaration.marker name).atoms))
      (spell (Declaration.marker name).atoms) := by
  have whole := (Declaration.marker name).whole.settles
  have trimmed := whole.trim_eq
  have plain := (Declaration.marker name).plain (by simp)
  have cut : lines (spell (Declaration.marker name).atoms) =
      [spell (Declaration.marker name).atoms] :=
    pieces_of_free (feed_free_spell fun a member => (plain a member).2)
  have parts : Interface.parts [spell (Declaration.marker name).atoms] = (name.text, []) := by
    refine (parts_spell name (.inr rfl) []).trans ?_
    have none : tokens [] = [] := tokens_spell .nil
    have empty : Interface.inlineMembers ['}'] = [] := by
      have blank : trim [] = [] := rfl
      simp [Interface.inlineMembers, beforeLast?, Nesting.split, none, Nesting.partsFrom, blank]
    rw [if_pos rfl]
    exact congrArg _ empty
  have written : Interface.ambient indentUnit (spell (Declaration.marker name).atoms) =
      spell (declaring .interfaceWord ++ [.word name, .gap .space]) ++ "\x7b\n\n\x7d".toList := by
    unfold Interface.ambient
    simp only [trimmed, cut, parts]
    rw [spell_declaring]
    have noLines : joinLines [] = [] := rfl
    have noLevels : Nesting.levels 1 [] = [] := rfl
    simp [noLines, noLevels, Gap.text, Word.text, Word.interfaceWord]
  have split : spell (Declaration.marker name).atoms =
      spell (declaring .interfaceWord ++ [.word name, .gap .space]) ++ ['{', '}'] := by
    simp [Declaration.atoms]
  have noBrace : '{' ∉ spell (declaring .interfaceWord ++ [.word name, .gap .space]) := by
    have inName : '{' ∉ name.text := fun member => absurd (name.all_chars _ member) (by decide)
    rw [spell_declaring]
    simpa [Gap.text, Word.text, Word.interfaceWord] using inName
  rw [written]
  refine ⟨fun rest => ?_, whole.feeds, whole.tidy, whole.head, whole.last⟩
  have pair := joinBraces_pair (w := ['\n', '\n']) (by decide) rest
  rw [List.append_assoc, joinBraces_append noBrace, split, List.append_assoc]
  exact congrArg _ pair

/-! ### Declarations -/

/-- The kind that the opening words show. A constant in declaration form is kept as written. -/
def Declaration.kind : Declaration → DeclarationKind
  | constant .. => .verbatim
  | function .. => .function
  | typeAlias .. => .typeAlias
  | marker .. | interface .. => .interface

/-- What a declaration becomes, before the text is tidied. -/
def Declaration.written (d : Declaration) : Text :=
  (d.kind.form "  ".toList (spell d.atoms)).value

/-- **Declarations in declaration form are kept**, once the text is tidied. -/
theorem settles_written (d : Declaration) : Settles d.written (spell d.atoms) := by
  have whole := d.whole.settles
  have kept (h : d.written = spell d.atoms) : Settles d.written (spell d.atoms) := by rwa [h]
  cases d with
  | constant name type => exact kept whole.trim_eq
  | function name params result => exact kept (ambient_function name params result)
  | typeAlias name type =>
    refine kept ?_
    have other : (afterExport? (spell (Declaration.typeAlias name type).atoms)).bind
        (after? "type".toList) = none := rfl
    show ambientAlias _ = _
    rw [ambientAlias, whole.trim_eq, other]
  | marker name => exact ambient_marker _ name
  | interface name first more => exact kept (ambient_interface name first more)

end Canonical

end Ambient
