import Ambient.Import
import Ambient.Proofs.ImportText
import Mathlib.Data.List.DropRight
import Mathlib.Data.List.Infix

/-!
An import keeps what it imports. A list of names becomes an `import type` statement when every
specifier looks like a type; where those that look so are those that are so, the new statement
imports the same names from the same module (`import_kept`). A value named `type` looks like a type
when something follows it, and then the import changes (`import_of_type_changed`).
-/

namespace Ambient

open Lexer

/-! ### Specifiers that look like types -/

namespace WrittenSpecifier

variable (s : WrittenSpecifier)

/-- A value named `type` with an alias behind it, or with blanks and a comment. -/
def misread : Bool :=
  s.name.text == typeText &&
    (s.renamed.isSome || (s.behind.head?.any Filler.isBlank && !s.behind.all Filler.isBlank))

/-- No comment stands before the specifier, and it starts with `type` and a blank. -/
def looksTyped : Bool := s.lead.all Filler.isBlank && (s.modifier.isSome || s.misread)

/-- What stands behind the specifier, without the last blanks. -/
def kept : List Filler := s.behind.rdropWhile Filler.isBlank

/-- A line comment is the last behind the specifier: what is put behind it would be part of it. -/
def endsInLine : Bool := s.kept.getLast?.any Filler.isLine

end WrittenSpecifier

namespace ImportText

variable (w : ImportText)

/-- All names are imported as types, and there are some. -/
def typeOnly : Bool := !w.specifiers.isEmpty && w.imports.all Specifier.typeOnly

/-- The statement is taken for an import of types. -/
def looksTyped : Bool :=
  !w.specifiers.isEmpty && w.specifiers.all WrittenSpecifier.looksTyped &&
    w.last.trailing.all Filler.isBlank

/-- The statement looks like what it is. -/
structure Plain : Prop where
  /-- The module holds no closing brace with `from` and a module behind it. -/
  source : ∀ front back, w.source.text = front ++ '\x7d' :: back → Import.source? back = none
  typed : w.looksTyped = w.typeOnly
  ends : w.typeOnly = true → ∀ s ∈ w.specifiers, s.endsInLine = false

end ImportText

/-! ### Blanks and comments at the ends of a part -/

namespace Filler

theorem blank_text {f : Filler} (h : f.isBlank = true) : ∀ c ∈ f.text, Ambient.isBlank c = true := by
  cases f with
  | blanks w => exact w.blank
  | block | line => cases h

theorem blank_spell {fs : List Filler} (h : fs.all isBlank = true) :
    ∀ c ∈ spell fs, Ambient.isBlank c = true := by
  intro c member
  obtain ⟨f, inside, char⟩ := List.mem_flatMap.1 member
  exact blank_text (List.all_eq_true.1 h f inside) c char

theorem exists_comment {f : Filler} (h : f.isBlank = false) : ∃ r, f.text = '/' :: r := by
  cases f with
  | blanks w => cases h
  | block body inside => exact ⟨_, rfl⟩
  | line body inside => exact ⟨_, rfl⟩

theorem trimLeft_spell {fs : List Filler} (h : fs.all isBlank = true) (t : Text) :
    trimLeft (spell fs ++ t) = trimLeft t :=
  List.dropWhile_append_of_pos (blank_spell h)

/-- A comment among blanks comes first in what is trimmed. -/
theorem exists_trimLeft_spell {fs : List Filler} (h : fs.all isBlank = false) (t : Text) :
    ∃ r, trimLeft (spell fs ++ t) = '/' :: r := by
  induction fs with
  | nil => cases h
  | cons f fs ih =>
    cases blank : f.isBlank with
    | true =>
      have rest : fs.all isBlank = false := by simpa [blank] using h
      obtain ⟨r, found⟩ := ih rest
      have same : trimLeft (f.text ++ (spell fs ++ t)) = trimLeft (spell fs ++ t) :=
        List.dropWhile_append_of_pos (blank_text blank)
      refine ⟨r, ?_⟩
      rw [spell, List.flatMap_cons, List.append_assoc]
      exact same.trans found
    | false =>
      obtain ⟨r, text⟩ := exists_comment blank
      rw [spell, List.flatMap_cons, text]
      exact ⟨_, trimLeft_of_head rfl (by decide)⟩

/-- What starts with a blank starts with blanks, not with a comment. -/
theorem starts_blank {fs : List Filler} {c : Char} {t : Text} (h : spell fs = c :: t)
    (blank : Ambient.isBlank c = true) : fs.head?.any isBlank = true := by
  cases fs with
  | nil => cases h
  | cons f fs =>
    cases first : f.isBlank with
    | true => simp [first]
    | false =>
      obtain ⟨r, text⟩ := exists_comment first
      rw [spell, List.flatMap_cons, text] at h
      rw [← (List.cons.inj h).1] at blank
      exact absurd blank (by decide)

theorem trimRight_spell (fs : List Filler) (t : Text) :
    trimRight (t ++ spell fs) = trimRight (t ++ spell (fs.rdropWhile isBlank)) := by
  induction fs using List.reverseRecOn with
  | nil => rfl
  | append_singleton fs f ih =>
    cases blank : f.isBlank with
    | true =>
      rw [List.rdropWhile_concat_pos _ _ _ blank, ← ih, spell, List.flatMap_append,
        ← List.append_assoc]
      exact trimRight_append_blank (by simpa using blank_text blank) _
    | false => rw [List.rdropWhile_concat_neg _ _ _ (by simp [blank])]

/-- Behind a solid end, what is kept ends with a solid character, unless it is a line comment. -/
theorem trimRight_kept {fs : List Filler} {t : Text} {c : Char} (last : t.getLast? = some c)
    (solid : Ambient.isBlank c = false) (ends : (fs.rdropWhile isBlank).getLast?.any isLine = false) :
    trimRight (t ++ spell fs) = t ++ spell (fs.rdropWhile isBlank) := by
  rw [trimRight_spell]
  rcases List.eq_nil_or_concat (fs.rdropWhile isBlank) with none | ⟨front, f, kept⟩
  · rw [none]
    simpa [spell] using trimRight_of_getLast last solid
  · have comment : f.isBlank = false := by
      have found := List.rdropWhile_last_not isBlank fs (by simp [kept])
      simpa [kept] using found
    rw [kept, List.concat_eq_append] at ends ⊢
    cases f with
    | blanks w => cases comment
    | line body inside => simp [isLine] at ends
    | block body inside =>
      have final : (t ++ spell (front ++ [block body inside])).getLast? = some '/' := by
        simp [spell, text, List.getLast?_append, List.getLast?_cons]
      exact trimRight_of_getLast final (by decide)

end Filler

/-! ### Parts between the commas -/

namespace Element

theorem unmarked_filler (f : Filler) : Unmarked f.text := by
  cases f with
  | blanks w => exact Written.of_dull fun c member => isDull_of_isBlank (w.blank c member)
  | block body inside =>
    exact @Unmarked.of_segment (.blockComment body inside) fun _ member =>
      List.eq_of_mem_replicate member
  | line body inside =>
    exact @Unmarked.of_segment (.lineComment body inside) fun _ member =>
      List.eq_of_mem_replicate member

theorem unmarked_word (n : Name) : Unmarked n.text :=
  Written.of_dull fun c member => by
    have letter := n.letters c member
    rw [isLetter, Bool.and_eq_true] at letter
    exact letter.1

/-- The element shows no mark: it is no sign and no literal. -/
def isUnmarked : Element → Bool
  | word _ | filler _ => true
  | sign .. | literal _ => false

theorem unmarked_spell {es : List Element} (h : ∀ e ∈ es, e.isUnmarked = true) :
    Unmarked (spell es) := by
  induction es with
  | nil => exact .nil
  | cons e es ih =>
    rw [spell_cons]
    refine .append ?_ (ih fun f member => h f (.tail e member))
    cases e with
    | word n => exact unmarked_word n
    | filler f => exact unmarked_filler f
    | sign | literal => cases h _ List.mem_cons_self

theorem spell_fillers (fs : List Filler) : spell (fs.map filler) = Filler.spell fs := by
  rw [spell, List.flatMap_map]
  rfl

theorem unmarked_fillers (fs : List Filler) : ∀ e ∈ fs.map filler, e.isUnmarked = true := by
  intro e member
  obtain ⟨f, -, rfl⟩ := List.mem_map.1 member
  rfl

end Element

/-- A text that starts with `type` and a blank starts with the word `type`. -/
theorem typeOnly?_eq_some {t u : Text} (h : Import.typeOnly? t = some u) :
    ∃ c v, t = typeText ++ c :: v ∧ isBlank c = true := by
  obtain ⟨v, found, skipped⟩ := Option.bind_eq_some_iff.1 h
  cases v with
  | nil => cases skipped
  | cons c v =>
    rw [afterBlanks?] at skipped
    split at skipped
    · next blank => exact ⟨c, v, after?_eq_some_iff.1 found, blank⟩
    · cases skipped

namespace WrittenSpecifier

variable (s : WrittenSpecifier)

/-- The specifier from its first word on. -/
def rest : Text := Element.spell (s.modified ++ s.named) ++ Filler.spell s.behind

theorem isUnmarked_elements : ∀ e ∈ s.elements, e.isUnmarked = true := by
  have words : ∀ e ∈ s.modified ++ s.named, e.isUnmarked = true := by
    obtain ⟨lead, modifier, name, renamed, behind⟩ := s
    cases modifier <;> cases renamed <;> simp [modified, named, Element.isUnmarked]
  intro e member
  rcases List.mem_append.1 member with member | member
  · exact Element.unmarked_fillers _ e member
  · rcases List.mem_append.1 member with member | member
    · exact words e member
    · exact Element.unmarked_fillers _ e member

theorem spell_elements : Element.spell s.elements = Filler.spell s.lead ++ s.rest := by
  rw [elements, Element.spell_append, Element.spell_append, Element.spell_fillers,
    Element.spell_fillers]
  rfl

end WrittenSpecifier

theorem solid_letter {c : Char} (h : isLetter c = true) : isBlank c = false := by
  rw [isLetter, Bool.and_eq_true] at h
  simpa using h.2

theorem Name.exists_first (n : Name) : ∃ c r, n.text = c :: r ∧ isBlank c = false := by
  obtain ⟨c, r, spelled⟩ := List.exists_cons_of_ne_nil n.nonempty
  exact ⟨c, r, spelled, solid_letter (n.letters c (spelled ▸ List.mem_cons_self))⟩

theorem Name.exists_last (n : Name) : ∃ c, n.text.getLast? = some c ∧ isBlank c = false := by
  cases last : n.text.getLast? with
  | none => exact absurd (List.getLast?_eq_none_iff.1 last) n.nonempty
  | some c => exact ⟨c, rfl, solid_letter (n.letters c (List.mem_of_getLast? last))⟩

namespace WrittenSpecifier

variable (s : WrittenSpecifier)

/-- What stands behind the name. -/
def second (s : WrittenSpecifier) : List Element :=
  s.renamed.elim [] fun a =>
    [.filler (.blanks a.before), .word .asName, .filler (.blanks a.behind), .word a.name]

theorem spell_named : Element.spell s.named = s.name.text ++ Element.spell s.second :=
  Element.spell_cons _ _

theorem named_ends : (∃ c r, Element.spell s.named = c :: r ∧ isBlank c = false) ∧
    ∃ c, (Element.spell s.named).getLast? = some c ∧ isBlank c = false := by
  obtain ⟨c, r, first, solid⟩ := s.name.exists_first
  refine ⟨⟨c, r ++ Element.spell s.second, by rw [spell_named, first]; rfl, solid⟩, ?_⟩
  rw [spell_named, second]
  cases s.renamed with
  | none =>
    rw [show Element.spell (Option.elim none [] _) = [] from rfl, List.append_nil]
    exact s.name.exists_last
  | some a =>
    obtain ⟨d, last, solid⟩ := a.name.exists_last
    refine ⟨d, ?_, solid⟩
    simp [Element.text, List.getLast?_append, last]

/-- A specifier behind a comment is trimmed to the comment. -/
theorem trim_behind_comment (commented : s.lead.all Filler.isBlank = false) :
    ∃ r, trim (Element.spell s.elements) = '/' :: r := by
  obtain ⟨r, found⟩ := Filler.exists_trimLeft_spell commented s.rest
  rw [spell_elements, trim, found]
  exact List.head?_eq_some_iff.1 (head?_trimRight rfl (by decide))

theorem trim_elements (plain : s.lead.all Filler.isBlank = true) :
    trim (Element.spell s.elements) = trimRight s.rest := by
  obtain ⟨c, r, first, solid⟩ := s.named_ends.1
  have head : ∃ d, s.rest.head? = some d ∧ isBlank d = false := by
    rw [rest, modified]
    cases s.modifier with
    | none => exact ⟨c, by simp [first], solid⟩
    | some w => exact ⟨'t', rfl, by decide⟩
  obtain ⟨d, head, solid⟩ := head
  rw [spell_elements, trim, Filler.trimLeft_spell plain, trimLeft_of_head head solid]

/-- **A specifier with the modifier is a type**, and what is kept of it is the rest. -/
theorem typeOnly?_of_modifier (plain : s.lead.all Filler.isBlank = true)
    (typed : s.modifier.isSome = true) (ends : s.endsInLine = false) :
    Import.typeOnly? (trim (Element.spell s.elements)) =
      some (Element.spell (s.named ++ s.kept.map .filler)) := by
  obtain ⟨w, modifier⟩ := Option.isSome_iff_exists.1 typed
  obtain ⟨⟨c, r, first, solid⟩, d, last, solid'⟩ := s.named_ends
  have rest : s.rest =
      typeText ++ (w.text ++ (Element.spell s.named ++ Filler.spell s.behind)) := by
    simp [WrittenSpecifier.rest, modified, modifier, Element.text, Filler.text, Name.typeName]
  have behind : trimRight (Element.spell s.named ++ Filler.spell s.behind) =
      Element.spell s.named ++ Filler.spell s.kept := Filler.trimRight_kept last solid' ends
  have some_behind : trimRight (Element.spell s.named ++ Filler.spell s.behind) ≠ [] := by
    rw [behind, first]
    simp
  have whole : trimRight s.rest =
      typeText ++ (w.text ++ (Element.spell s.named ++ Filler.spell s.kept)) := by
    rw [rest, ← List.append_assoc, trimRight_append_of_ne_nil _ some_behind, behind,
      List.append_assoc]
  have skipped : trimLeft (w.more ++ (Element.spell s.named ++ Filler.spell s.kept)) =
      Element.spell s.named ++ Filler.spell s.kept := by
    have blank : ∀ c ∈ w.more, isBlank c = true := fun c member => w.blank c (.tail _ member)
    rw [trimLeft, List.dropWhile_append_of_pos blank, first]
    exact trimLeft_of_head rfl solid
  rw [trim_elements s plain, whole, Element.spell_append, Element.spell_fillers, Import.typeOnly?,
    afterSpaced?, show "type".toList = typeText from rfl, after?_append, Option.bind_some,
    Blanks.text, List.cons_append, afterBlanks?, if_pos (w.blank _ List.mem_cons_self), skipped]

/-- What stands behind the name starts with no letter. -/
theorem behind_name_stop : ∀ d ∈ (Element.spell s.second ++ Filler.spell s.behind).head?,
    isLetter d = false := by
  rw [← Element.spell_fillers, ← Element.spell_append]
  refine Element.stop_spell fun e head => ?_
  rw [second] at head
  cases renamed : s.renamed with
  | none =>
    rw [renamed] at head
    exact Element.signs_fillers s.behind e (List.mem_of_mem_head? head)
  | some a =>
    rw [renamed] at head
    exact Option.some.inj head ▸ rfl

/-- Without the modifier, a specifier that starts with `type` and a blank is named `type`. -/
theorem named_type (bare : s.modifier = none) {c : Char} {t : Text}
    (starts : s.rest = typeText ++ c :: t) (blank : isBlank c = true) :
    s.name.text = typeText ∧ Element.spell s.second ++ Filler.spell s.behind = c :: t := by
  have words : s.name.text ++ (Element.spell s.second ++ Filler.spell s.behind) =
      typeText ++ c :: t := by
    rw [← starts]
    simp [rest, modified, bare, spell_named]
  have stop : ∀ d ∈ (c :: t).head?, isLetter d = false := fun d head => by
    rw [← Option.some.inj head, isLetter, blank]
    exact Bool.and_false _
  -- Both sides of `words` start with a word, so the words agree and what is behind them.
  obtain ⟨taken, left⟩ := span_of_stop s.name.letters s.behind_name_stop
  obtain ⟨taken', left'⟩ := span_of_stop Name.typeName.letters stop
  rw [words] at taken left
  exact ⟨taken.symm.trans taken', left.symm.trans left'⟩

/-- A bare name with blanks alone behind it is trimmed to the name. -/
theorem trim_bare (plain : s.lead.all Filler.isBlank = true) (bare : s.modifier = none)
    (single : s.renamed = none) (blanks : s.behind.all Filler.isBlank = true) :
    trim (Element.spell s.elements) = s.name.text := by
  obtain ⟨d, last, solid⟩ := s.name.exists_last
  have rest : s.rest = s.name.text ++ Filler.spell s.behind := by
    simp [WrittenSpecifier.rest, modified, bare, spell_named, second, single]
  rw [trim_elements s plain, rest, trimRight_append_blank (Filler.blank_spell blanks),
    trimRight_of_getLast last solid]

/-- **What is taken for a type looks like one.** -/
theorem looksTyped_of_typeOnly? {u : Text}
    (h : Import.typeOnly? (trim (Element.spell s.elements)) = some u) : s.looksTyped = true := by
  obtain ⟨c, v, spelled, blank⟩ := typeOnly?_eq_some h
  cases plain : s.lead.all Filler.isBlank with
  | false =>
    obtain ⟨r, found⟩ := s.trim_behind_comment plain
    rw [found] at spelled
    exact absurd (List.cons.inj spelled).1 (by decide)
  | true =>
    cases modifier : s.modifier with
    | some w => simp [looksTyped, plain, modifier]
    | none =>
      obtain ⟨w, -, split⟩ := exists_trimRight_append s.rest
      rw [← trim_elements s plain, spelled, List.append_assoc, List.cons_append] at split
      obtain ⟨name, tail⟩ := s.named_type modifier split blank
      cases renamed : s.renamed with
      | some a => simp [looksTyped, plain, misread, name, renamed]
      | none =>
        have spaced : s.behind.head?.any Filler.isBlank = true := by
          rw [second, renamed] at tail
          exact Filler.starts_blank tail blank
        have commented : s.behind.all Filler.isBlank = false := by
          refine eq_false_of_ne_true fun blanks => ?_
          rw [s.trim_bare plain modifier renamed blanks, name] at spelled
          simp at spelled
        simp [looksTyped, plain, misread, name, spaced, commented]

end WrittenSpecifier

/-! ### The braces and the module -/

namespace Import

theorem namesAndSource?_eq_none {t : Text}
    (h : ∀ front back, t = front ++ '\x7d' :: back → source? back = none) :
    namesAndSource? t = none := by
  induction t with
  | nil => rfl
  | cons c r ih =>
    have later : namesAndSource? r = none := ih fun front back split => h (c :: front) back (by
      rw [split, List.cons_append])
    rw [namesAndSource?, later]
    simp only
    split
    · next brace => rw [h [] r (by rw [brace]; rfl), Option.map_none]
    · rfl

theorem namesAndSource?_behind {u t : Text} (free : '\x7d' ∉ u) (h : namesAndSource? t = none) :
    namesAndSource? (u ++ t) = none := by
  induction u with
  | nil => exact h
  | cons c u ih =>
    rw [List.mem_cons, not_or] at free
    rw [List.cons_append, namesAndSource?, ih free.2]
    simp [Ne.symm free.1]

/-- The last brace with a module behind it ends the names. -/
theorem namesAndSource?_append (names : Text) {r source : Text} (last : namesAndSource? r = none)
    (found : source? r = some source) :
    namesAndSource? (names ++ '\x7d' :: r) = some (names, source) := by
  induction names with
  | nil => simp [namesAndSource?, last, found]
  | cons c names ih => rw [List.cons_append, namesAndSource?, ih]

end Import

/-- Optional blanks are skipped before a solid character. -/
theorem trimLeft_gap (w : Option Blanks) {t : Text} {c : Char} (head : t.head? = some c)
    (solid : isBlank c = false) : trimLeft (Element.spell (Element.gap w) ++ t) = t := by
  cases w with
  | none => exact trimLeft_of_head head solid
  | some w =>
    have skipped : trimLeft (w.text ++ t) = trimLeft t := List.dropWhile_append_of_pos w.blank
    simpa [Element.gap, Element.text, Filler.text] using skipped.trans (trimLeft_of_head head solid)

theorem blank_gap (w : Option Blanks) : ∀ c ∈ Element.spell (Element.gap w), isBlank c = true := by
  cases w with
  | none => exact nofun
  | some w =>
    have spelled : Element.spell (Element.gap (some w)) = w.text := by
      simp [Element.gap, Element.text, Filler.text]
    exact spelled ▸ w.blank

theorem QuotedText.solid (q : QuotedText) :
    q.text.head? = some q.mark ∧ q.text.getLast? = some q.mark ∧ isBlank q.mark = false := by
  refine ⟨rfl, List.getLast?_concat, ?_⟩
  rcases q.quote with mark | mark <;> rw [mark] <;> decide

namespace ImportText

variable (w : ImportText)

theorem spell_origin : Element.spell w.origin = Element.spell (Element.gap w.closedGap) ++
    ("from".toList ++ (Element.spell (Element.gap w.fromGap) ++ w.source.text)) := by
  simp [origin, Element.text, Name.fromName]

theorem spell_statement : Element.spell w.statement = "import".toList ++
    (Element.spell (Element.gap w.gap) ++
      '\x7b' :: (Element.spell w.names ++ '\x7d' :: Element.spell w.origin)) := by
  rw [statement, Element.spell_cons, Element.spell_append, Element.spell_cons, Element.spell_append,
    Element.spell_cons]
  rfl

theorem trim_text : trim w.text = Element.spell w.statement := by
  obtain ⟨-, last, solid⟩ := w.source.solid
  have final : (Element.spell w.statement).getLast? = some w.source.mark := by
    rw [spell_statement, spell_origin]
    simp [List.getLast?_append, List.getLast?_cons, last]
  have first : (Element.spell w.statement).head? = some 'i' := by
    rw [spell_statement]
    rfl
  rw [text, Element.spell_append, Element.spell_append, trim_append_blank (blank_gap w.behind), trim,
    trimLeft_gap w.before first (by decide), trimRight_of_getLast final solid]

theorem source?_origin : Import.source? (Element.spell w.origin) = some w.source.text := by
  obtain ⟨first, -, solid⟩ := w.source.solid
  rw [Import.source?, spell_origin, trimLeft_gap w.closedGap rfl (by decide), after?_append,
    Option.bind_some, trimLeft_gap w.fromGap first solid, if_neg (by simp [QuotedText.text])]

theorem named?_statement (plain : w.Plain) : Import.named? (Element.spell w.statement) =
    some (Element.spell w.names, w.source.text) := by
  have braceless (g : Option Blanks) : '\x7d' ∉ Element.spell (Element.gap g) := fun member =>
    absurd (blank_gap g _ member) (by decide)
  have last : Import.namesAndSource? (Element.spell w.origin) = none := by
    rw [spell_origin]
    refine Import.namesAndSource?_behind (braceless _) (Import.namesAndSource?_behind (by decide) ?_)
    exact Import.namesAndSource?_behind (braceless _) (Import.namesAndSource?_eq_none plain.source)
  rw [Import.named?, spell_statement, after?_append, Option.bind_some,
    trimLeft_gap w.gap rfl (by decide), after?_cons, if_pos rfl, after?_nil, Option.bind_some,
    Import.namesAndSource?_append _ last w.source?_origin]

/-- The names are cut at the commas between them. -/
theorem split_names : Nesting.split false [','] (Element.spell w.names) =
    (w.parts.map fun part => trim (Element.spell part)).filter (· != []) := by
  have joined : Element.spell w.names = joinPieces ',' (w.parts.map Element.spell) :=
    Element.flatMap_intercalate Element.text [Element.comma] w.parts
  rw [joined, Nesting.split_joinPieces (by decide), List.map_map]
  · rfl
  · intro t member
    obtain ⟨part, inside, rfl⟩ := List.mem_map.1 member
    refine .of_unmarked (Element.unmarked_spell ?_)
    rcases List.mem_append.1 inside with inside | inside
    · obtain ⟨s, -, rfl⟩ := List.mem_map.1 inside
      exact s.isUnmarked_elements
    · rw [List.mem_singleton.1 inside]
      cases w.last with
      | specifier s => exact s.isUnmarked_elements
      | fillers fs => exact Element.unmarked_fillers fs

theorem piece_ne_nil (s : WrittenSpecifier) : trim (Element.spell s.elements) ≠ [] := by
  cases plain : s.lead.all Filler.isBlank with
  | false =>
    obtain ⟨r, found⟩ := s.trim_behind_comment plain
    simp [found]
  | true =>
    obtain ⟨c, r, first, solid⟩ := s.named_ends.1
    rw [s.trim_elements plain]
    refine trimRight_ne_nil (List.mem_append_left _ ?_) solid
    rw [Element.spell_append, first]
    simp

theorem trim_fillers (fs : List Filler) : if fs.all Filler.isBlank then trim (Filler.spell fs) = []
    else ∃ r, trim (Filler.spell fs) = '/' :: r := by
  rw [← List.append_nil (Filler.spell fs)]
  split
  · next blank =>
    rw [trim, Filler.trimLeft_spell blank]
    rfl
  · next commented =>
    obtain ⟨r, found⟩ := Filler.exists_trimLeft_spell (eq_false_of_ne_true commented) []
    rw [trim, found]
    exact List.head?_eq_some_iff.1 (head?_trimRight rfl (by decide))

/-- The parts are the specifiers; comments behind the last comma are a part of their own. -/
theorem split_specifiers : Nesting.split false [','] (Element.spell w.names) =
    (w.specifiers.map fun s => trim (Element.spell s.elements)) ++
      if w.last.trailing.all Filler.isBlank then [] else [trim (Filler.spell w.last.trailing)] := by
  have solid (ss : List WrittenSpecifier) :
      (ss.map fun s => trim (Element.spell s.elements)).filter (· != []) =
        ss.map fun s => trim (Element.spell s.elements) := by
    refine List.filter_eq_self.2 fun t member => ?_
    obtain ⟨s, -, rfl⟩ := List.mem_map.1 member
    simpa using piece_ne_nil s
  have last : [trim (Element.spell w.last.elements)].filter (· != []) =
      (w.last.specifiers.map fun s => trim (Element.spell s.elements)) ++
        if w.last.trailing.all Filler.isBlank then [] else [trim (Filler.spell w.last.trailing)] := by
    cases w.last with
    | specifier s => exact solid [s]
    | fillers fs =>
      have trimmed := trim_fillers fs
      rw [LastPart.elements, Element.spell_fillers]
      cases blank : fs.all Filler.isBlank with
      | true =>
        rw [blank, if_pos rfl] at trimmed
        simp [LastPart.specifiers, LastPart.trailing, blank, trimmed]
      | false =>
        rw [blank, if_neg (by decide)] at trimmed
        obtain ⟨r, found⟩ := trimmed
        simp [LastPart.specifiers, LastPart.trailing, blank, found]
  have ended := solid w.ended
  rw [split_names, parts, List.map_append, List.filter_append, List.map_map, List.map_singleton, last,
    ImportText.specifiers, List.map_append, List.append_assoc]
  exact congrArg (· ++ _) ended

/-- **A statement that does not look like an import of types stays as it is.** -/
theorem typeImport?_of_not_looksTyped (looks : w.looksTyped = false) (source : Text) :
    Import.typeImport? (Nesting.split false [','] (Element.spell w.names)) source = none := by
  unfold Import.typeImport?
  split
  · rfl
  · next some_part =>
    refine Option.map_eq_none_iff.2 (Option.eq_none_iff_forall_ne_some.2 fun names read => ?_)
    have each := exists_of_mapM read
    rw [split_specifiers] at each some_part
    have trailing : w.last.trailing.all Filler.isBlank = true := by
      cases blank : w.last.trailing.all Filler.isBlank with
      | true => rfl
      | false =>
        have trimmed := trim_fillers w.last.trailing
        rw [blank, if_neg (by decide)] at trimmed
        obtain ⟨r, found⟩ := trimmed
        obtain ⟨u, typed⟩ := each (trim (Filler.spell w.last.trailing)) (by simp [blank])
        rw [found] at typed
        cases typed
    have typed : w.specifiers.all WrittenSpecifier.looksTyped = true := by
      refine List.all_eq_true.2 fun s member => ?_
      obtain ⟨u, typed⟩ := each (trim (Element.spell s.elements))
        (List.mem_append_left _ (List.mem_map.2 ⟨s, member, rfl⟩))
      exact s.looksTyped_of_typeOnly? typed
    have nonempty : w.specifiers ≠ [] := by
      intro none
      rw [none, trailing] at some_part
      exact some_part rfl
    simp [looksTyped, trailing, typed, nonempty] at looks

/-- The names of an import of types, each with the comments behind it. -/
def typeNames (w : ImportText) : List (List Element) :=
  w.specifiers.map fun s => s.named ++ s.kept.map .filler

/-- The statement as an import of types. -/
def typeStatement (w : ImportText) : List Element :=
  [.word .importName, .filler (.blanks .space), .word .typeName, .filler (.blanks .space), .opening,
      .filler (.blanks .space)] ++
    [Element.comma, .filler (.blanks .space)].intercalate w.typeNames ++
    [.filler (.blanks .space), .closing, .filler (.blanks .space), .word .fromName,
      .filler (.blanks .space), .literal w.source]

theorem spell_typeStatement : Element.spell w.typeStatement = "import type \x7b ".toList ++
    Element.spell ([Element.comma, .filler (.blanks .space)].intercalate w.typeNames) ++
      " \x7d from ".toList ++ w.source.text := by
  have behind : Element.spell [.filler (.blanks .space), .closing, .filler (.blanks .space),
      .word .fromName, .filler (.blanks .space), .literal w.source] =
        " \x7d from ".toList ++ w.source.text := by
    exact congrArg (" \x7d from ".toList ++ ·) (List.append_nil _)
  rw [typeStatement, Element.spell_append, Element.spell_append, behind, ← List.append_assoc]
  rfl

theorem typeImport?_of_typeOnly (plain : w.Plain) (typed : w.typeOnly = true) :
    Import.typeImport? (Nesting.split false [','] (Element.spell w.names)) w.source.text =
      some (Element.spell w.typeStatement) := by
  have looks := plain.typed.trans typed
  simp only [looksTyped, Bool.and_eq_true, Bool.not_eq_true', List.isEmpty_eq_false_iff] at looks
  obtain ⟨⟨nonempty, each⟩, trailing⟩ := looks
  have read : ∀ s ∈ w.specifiers, Import.typeOnly? (trim (Element.spell s.elements)) =
      some (Element.spell (s.named ++ s.kept.map .filler)) := by
    intro s member
    have looks := List.all_eq_true.1 each s member
    rw [WrittenSpecifier.looksTyped, Bool.and_eq_true] at looks
    have modified : s.modifier.isSome = true := by
      simp only [typeOnly, imports, Bool.and_eq_true, List.all_eq_true, List.mem_map] at typed
      exact typed.2 s.specifier ⟨s, member, rfl⟩
    exact s.typeOnly?_of_modifier looks.1 modified (plain.ends typed s member)
  have names : ", ".toList.intercalate
      (w.specifiers.map fun s => Element.spell (s.named ++ s.kept.map .filler)) =
        Element.spell ([Element.comma, .filler (.blanks .space)].intercalate w.typeNames) := by
    rw [Element.spell, Element.flatMap_intercalate, typeNames, List.map_map]
    rfl
  obtain ⟨first, last, solid⟩ := w.source.solid
  unfold Import.typeImport?
  rw [split_specifiers, if_pos trailing, List.append_nil, if_neg (by simpa using nonempty),
    mapM_map_some read, Option.map_some, names, trim_of_ends first last solid solid,
    spell_typeStatement]

theorem typeNames_facts : (∀ p ∈ w.typeNames, p.IsChain Element.Apart) ∧
    ([Element.comma, .filler (.blanks .space)].intercalate w.typeNames).flatMap Element.symbols =
      NamedImport.listed false WrittenSpecifier.namedWords w.specifiers := by
  constructor
  · intro part member
    obtain ⟨s, -, rfl⟩ := List.mem_map.1 member
    exact (Element.isChain_append_signs (Element.signs_fillers _)).2 s.named_facts.1
  · have each : w.typeNames.map (·.flatMap Element.symbols) =
        w.specifiers.map fun s => s.namedWords.map .word := by
      rw [typeNames, List.map_map]
      refine List.map_congr_left fun s _ => ?_
      rw [Function.comp_apply, List.flatMap_append, Element.symbols_fillers, List.append_nil,
        s.named_facts.2]
    rw [Element.flatMap_intercalate, each, NamedImport.listed]
    simp [Element.symbols, Element.comma]

/-- The statement as an import of types imports the same. -/
theorem read?_typeStatement (typed : w.typeOnly = true) :
    NamedImport.read? (Element.spell w.typeStatement) =
      some ⟨true, w.imports, w.source.text⟩ := by
  obtain ⟨apart, names⟩ := w.typeNames_facts
  simp only [typeOnly, imports, Bool.and_eq_true, Bool.not_eq_true', List.isEmpty_eq_false_iff,
    List.all_eq_true, List.mem_map] at typed
  obtain ⟨nonempty, modified⟩ := typed
  refine NamedImport.read?_of_symbols false WrittenSpecifier.namedWords w.specifiers
    (fun none => absurd none nonempty) (fun s _ => List.cons_ne_nil _ _)
    (fun s member => s.ofWords?_namedWords (modified s.specifier ⟨s, member, rfl⟩)) ?_
  rw [Element.symbols_spell, typeStatement, List.flatMap_append, List.flatMap_append, names,
    List.append_assoc]
  · rfl
  · have front : [Element.word .importName, .filler (.blanks .space), .word .typeName,
        .filler (.blanks .space), .opening].IsChain Element.Apart := by
      simp [Element.Apart, Element.isWord]
    have back : [Element.closing, .filler (.blanks .space), .word .fromName,
        .filler (.blanks .space), .literal w.source].IsChain Element.Apart := by
      simp [Element.Apart, Element.isWord]
    have inside : ([Element.comma, .filler (.blanks .space)].intercalate w.typeNames).IsChain
        Element.Apart :=
      Element.isChain_intercalate (by simp [Element.comma, Element.isWord]) (by simp) apart
    have opened := (Element.isChain_around (e := .filler (.blanks .space)) rfl).2 ⟨front, inside⟩
    have closed := (Element.isChain_around (e := .filler (.blanks .space)) rfl).2 ⟨opened, back⟩
    simpa [typeStatement] using closed

end ImportText

/-- **An import keeps its names and its module**, and it becomes an `import type` statement where it
imports types only. -/
theorem import_kept (w : ImportText) (plain : w.Plain) :
    NamedImport.read? w.text = some ⟨false, w.imports, w.source.text⟩ ∧
      NamedImport.read? (Import.normalize w.text) =
        some ⟨w.typeOnly, w.imports, w.source.text⟩ := by
  have value : Import.normalize w.text =
      (Import.typeImport? (Nesting.split false [','] (Element.spell w.names)) w.source.text).getD
        (Element.spell w.statement) := by
    have fresh : (afterSpaced? "import".toList (Element.spell w.statement)).any
        (Import.normalize.startsWithType ·) = false := by
      rw [w.spell_statement, afterSpaced?, after?_append, Option.bind_some]
      cases w.gap with
      | none => rfl
      | some g =>
        have blank : ∀ c ∈ g.more, isBlank c = true := fun c member => g.blank c (.tail _ member)
        have skipped (t : Text) : afterBlanks? (g.text ++ '\x7b' :: t) = some ('\x7b' :: t) := by
          rw [Blanks.text, List.cons_append, afterBlanks?, if_pos (g.blank _ List.mem_cons_self),
            trimLeft, List.dropWhile_append_of_pos blank]
          rfl
        have spelled : Element.spell (Element.gap (some g)) = g.text := by
          simp [Element.gap, Element.text, Filler.text]
        rw [spelled, skipped]
        rfl
    unfold Import.normalize
    simp only [w.trim_text, fresh, w.named?_statement plain, Option.bind_some, Bool.false_eq_true,
      ↓reduceIte]
  refine ⟨w.read?_text, ?_⟩
  cases typed : w.typeOnly with
  | true =>
    rw [value, w.typeImport?_of_typeOnly plain typed]
    exact w.read?_typeStatement typed
  | false =>
    rw [value, w.typeImport?_of_not_looksTyped (plain.typed.trans typed)]
    exact w.read?_statement

/-- Types with comments behind them become one import of types. -/
theorem commented_import_kept :
    let a : WrittenSpecifier := ⟨[.blanks .space], some .space, ⟨['A'], by decide, by decide⟩,
      some ⟨.space, .space, ⟨['B'], by decide, by decide⟩⟩,
      [.blanks .space, .block ['1'] (by decide), .blanks .space]⟩
    let c : WrittenSpecifier := ⟨[.blanks .space], some .space, ⟨['C'], by decide, by decide⟩, none, []⟩
    let w : ImportText := ⟨none, some .space, [a, c], .fillers [.blanks .space], some .space,
      some .space, ⟨'\'', ['m'], .inr rfl, .plain (by decide) (by decide) (by decide) .nil⟩, none⟩
    w.text = "import { type A as B /*1*/ , type C, } from 'm'".toList ∧
      Import.normalize w.text = "import type { A as B /*1*/, C } from 'm'".toList ∧ w.Plain ∧
      NamedImport.read? (Import.normalize w.text) =
        some ⟨true, [⟨true, ['A'], ['B']⟩, ⟨true, ['C'], ['C']⟩], "'m'".toList⟩ := by
  intro a c w
  have plain : w.Plain := by
    refine ⟨fun front back split => ?_, by decide +kernel, by decide +kernel⟩
    have member : '\x7d' ∈ w.source.text := split ▸ List.mem_append_right front List.mem_cons_self
    exact absurd member (by decide)
  exact ⟨by decide +kernel, by decide +kernel, plain, (import_kept w plain).2⟩

/-- **A value named `type` is taken for a modifier**: the import is no longer one. -/
theorem import_of_type_changed :
    let t : Text := "import { type as x } from 'm'".toList
    NamedImport.read? t = some ⟨false, [⟨false, typeText, ['x']⟩], "'m'".toList⟩ ∧
      Import.normalize t = "import type { as x } from 'm'".toList ∧
      NamedImport.read? (Import.normalize t) = none := by
  decide +kernel

end Ambient
