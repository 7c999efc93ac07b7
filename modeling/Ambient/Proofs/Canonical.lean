import Ambient.Proofs.Phrase
import Ambient.Proofs.Tidy
import Ambient.Scan.Comment

/-!
Files in declaration form: imports, ambient declarations with their comment blocks, and re-exports,
each group in its place and one blank line between the groups.
-/

namespace Ambient

namespace Canonical

open Atom

/-- The type of a declaration; its literals are alphanumeric. -/
abbrev Ty : Type := TypeText isAlphanumeric

/-- A name with its type: a parameter or a member. -/
abbrev Field : Type := Phrase isAlphanumeric (.item true)

def isPathChar (c : Char) : Bool := isAlphanumeric c || ['.', '/', '-', '@'].contains c

/-- A quoted module path. -/
structure ModulePath where
  quotation : Quotation
  chars : ∀ c ∈ quotation.body, isPathChar c = true

/-- Names with commas between them. -/
def names (first : Word) : List Word → Phrase isAlphanumeric (.list false .comma)
  | [] => .single (.unnamed (.name first))
  | w :: ws => .cons (.unnamed (.name first)) (names w ws)

/-- The words `from` and the module, after a gap. -/
def source (path : ModulePath) : List Atom :=
  [.gap .space, .word .fromWord, .gap .space, .literal path.quotation]

/-- A list of names in braces. -/
def braced (first : Word) (more : List Word) : List Atom :=
  [.brace (some .space)] ++ (names first more).atoms ++ [.gap .space, .bracket .closeBrace]

inductive Import
  | default (name : Word) (path : ModulePath)
  | module (name : Word) (path : ModulePath)
  | named (first : Word) (more : List Word) (path : ModulePath)
  | types (first : Word) (more : List Word) (path : ModulePath)

def Import.atoms : Import → List Atom
  | default name path => [.word .importWord, .gap .space, .word name] ++ source path
  | module name path =>
    [.word .importWord, .gap .space, .sign .star, .gap .space, .word .asWord, .gap .space,
      .word name] ++ source path
  | named first more path =>
    [.word .importWord, .gap .space] ++ braced first more ++ source path
  | types first more path =>
    [.word .importWord, .gap .space, .word .typeWord, .gap .space] ++ braced first more ++
      source path

inductive Reexport
  | named (first : Word) (more : List Word)
  | all (path : ModulePath)

def Reexport.atoms : Reexport → List Atom
  | named first more => [.word .exportWord, .gap .space] ++ braced first more
  | all path => [.word .exportWord, .gap .space, .sign .star] ++ source path

/-- The words before the name of a declaration. -/
def declaring (kind : Word) : List Atom :=
  [.word .exportWord, .gap .space, .word .declareWord, .gap .space, .word kind, .gap .space]

/-- The members of an interface, with a gap between them. -/
def members (g : Gap) (first : Field) : List Field → List Atom
  | [] => first.atoms
  | f :: fs => first.atoms ++ [.gap g] ++ members g f fs

/-- The parameters of a function. -/
abbrev Params : Type := Option (Phrase isAlphanumeric (.list true .comma))

/-- The name and the parameter list of a function. -/
def signature (name : Word) (params : Params) : List Atom :=
  [.word name, .bracket .openParen] ++ params.elim [] Phrase.atoms ++ [.bracket .closeParen]

inductive Declaration
  | constant (name : Word) (type : Ty)
  | function (name : Word) (params : Params) (result : Ty)
  | typeAlias (name : Word) (type : Ty)
  /-- An interface without members. -/
  | marker (name : Word)
  | interface (name : Word) (first : Field) (more : List Field)

namespace Declaration

/-- A constant before its semicolon. -/
def constantBody (name : Word) (type : Ty) : List Atom :=
  declaring .constWord ++ [.word name, .sign .colon, .gap .space] ++ type.atoms

/-- A function before its semicolon. -/
def functionBody (name : Word) (params : Params) (result : Ty) : List Atom :=
  declaring .functionWord ++ signature name params ++ [.sign .colon, .gap .space] ++ result.atoms

/-- The opening line of an interface with members. -/
def opening (name : Word) : List Atom :=
  declaring .interfaceWord ++ [.word name, .gap .space, .brace none]

def atoms : Declaration → List Atom
  | constant name type => constantBody name type ++ [.sign .semicolon]
  | function name params result => functionBody name params result ++ [.sign .semicolon]
  | typeAlias name type =>
    declaring .typeWord ++ [.word name, .gap .space, .sign .assign, .gap .space] ++ type.atoms
  | marker name => declaring .interfaceWord ++ [.word name, .gap .space, .braces]
  | interface name first more =>
    declaring .interfaceWord ++ [.word name, .gap .space, .brace (some .indent)] ++
      members .indent first more ++ [.gap .feed, .bracket .closeBrace]

/-- A member on its line. -/
def memberLine (f : Field) : Text := ' ' :: ' ' :: spell f.atoms

def lines : Declaration → List Text
  | interface name first more =>
    spell (opening name) :: (first :: more).map memberLine ++ [['}']]
  | d => [spell d.atoms]

end Declaration

/-- A default export before its semicolon. -/
def defaultBody (name : Word) : List Atom :=
  [.word .exportWord, .gap .space, .word .defaultWord, .gap .space, .word name]

def defaultExport (name : Word) : List Atom := defaultBody name ++ [.sign .semicolon]

/-- A comment block: what stands behind the opening mark, and behind the star of each further line.
It plays no role whether and where the block is closed. -/
structure CommentText where
  opening : Text
  more : List Text
  calm : ∀ l ∈ opening :: more, ∀ c ∈ l, c ∉ ['{', '}', ';', '\n']
  solid : ∀ l ∈ opening :: more, ∀ c ∈ l.getLast?, isBlank c = false

def CommentText.lines (t : CommentText) : List Text :=
  ("/**".toList ++ t.opening) :: t.more.map (" *".toList ++ ·)

structure File where
  imports : List Import
  declarations : List (Option CommentText × Declaration)
  reexports : List Reexport
  default : Option Word

namespace File

/-- The lines of the groups that are not empty. -/
def groups (f : File) : List (List Text) :=
  [f.imports.map (spell ·.atoms),
    f.declarations.flatMap fun x => x.1.elim [] CommentText.lines ++ x.2.lines,
    f.reexports.map (spell ·.atoms) ++ (f.default.map (spell <| defaultExport ·)).toList].filter
      (· != [])

/-- The text of the file: one blank line divides the groups. -/
def text (f : File) : Text := "\n\n".toList.intercalate (f.groups.map joinLines)

end File

/-! ### Statements are sound -/

open Phrase Cleanup

/-- A statement that stands by itself. -/
structure Whole (as : List Atom) : Prop where
  sound : Sound as
  calm : ∀ a ∈ as, Calm a
  head : ∃ a ∈ as.head?, a.isGap = false
  last : ∃ a ∈ as.getLast?, isShut a = true

theorem Whole.settles {as : List Atom} (h : Whole as) : Settles (spell as) (spell as) :=
  settles_spell h.sound h.calm h.head h.last

theorem not_sign_of_isPathChar {c : Char} (h : isPathChar c = true) : c ∉ [';', '{', '}'] := by
  have known : ∀ c ∈ [';', '{', '}'], isPathChar c = false := by decide
  exact fun member => absurd h (by rw [known c member]; decide)

theorem not_sign_of_isAlphanumeric {c : Char} (h : isAlphanumeric c = true) :
    c ∉ [';', '{', '}'] :=
  not_sign_of_isPathChar (by rw [isPathChar, h, Bool.true_or])

/-- Atoms that stay calm on one line. -/
def Plain (as : List Atom) : Prop := ∀ a ∈ as, Calm a ∧ isFlat a = true

theorem Plain.append {as bs : List Atom} (h : Plain as) (k : Plain bs) : Plain (as ++ bs) := by
  intro a member
  rcases List.mem_append.1 member with member | member
  · exact h a member
  · exact k a member

/-- The atom is plain whatever it spells. -/
def isSimple : Atom → Bool
  | .literal _ => false
  | a => isFlat a

theorem plain_of_isSimple {as : List Atom} (h : as.all isSimple = true) : Plain as := by
  intro a member
  have simple := List.all_eq_true.1 h a member
  cases a with
  | literal q => cases simple
  | _ => exact ⟨trivial, simple⟩

theorem plain_literal {q : Quotation} (calm : ∀ c ∈ q.body, c ∉ [';', '{', '}']) :
    Plain [.literal q] := by
  intro a member
  rw [List.mem_singleton.1 member]
  exact ⟨calm, rfl⟩

/-- Phrases are calm and stay on their line. -/
theorem plain_phrase {k : Category} (x : Phrase isAlphanumeric k) : Plain x.atoms := by
  induction x with
  | name n | typeof n | emptyObject => exact plain_of_isSimple rfl
  | literal q inside =>
    exact plain_literal fun c found => not_sign_of_isAlphanumeric (inside c found)
  | array t ih => exact ih.append (plain_of_isSimple rfl)
  | generic n arguments ih =>
    exact ((plain_of_isSimple rfl).append ih).append (plain_of_isSimple rfl)
  | tuple elements ih => exact ((plain_of_isSimple rfl).append ih).append (plain_of_isSimple rfl)
  | object fields ih => exact ((plain_of_isSimple rfl).append ih).append (plain_of_isSimple rfl)
  | function params result ih ih' =>
    exact (((plain_of_isSimple rfl).append ih).append (plain_of_isSimple rfl)).append ih'
  | thunk result ih => exact Plain.append (plain_of_isSimple rfl) ih
  | group t ih => exact ((plain_of_isSimple rfl).append ih).append (plain_of_isSimple rfl)
  | joined c left right ih ih' => exact (ih.append (plain_of_isSimple rfl)).append ih'
  | keyof t ih => exact Plain.append (plain_of_isSimple rfl) ih
  | unnamed t ih | single x ih => exact ih
  | named n t ih => exact Plain.append (plain_of_isSimple rfl) ih
  | cons x xs ih ih' => exact (ih.append (plain_of_isSimple rfl)).append ih'

theorem spans_names (first : Word) (more : List Word) : Spans true (names first more).atoms := by
  have known := (names first more).spans
  refine ⟨known.sound, ⟨.word first, ?_, rfl⟩, known.last⟩
  cases more <;> rfl

theorem spans_braced (first : Word) (more : List Word) : Spans false (braced first more) :=
  ((spans_names first more).prepend (.singleton _) ⟨_, rfl, by rfl⟩ ⟨_, rfl, leads_brace _⟩).append
    (sound_of_isSound rfl) ⟨_, rfl, trails_gap _⟩ ⟨_, rfl, rfl⟩

theorem sound_source (path : ModulePath) : Sound (source path) := sound_of_isSound rfl

theorem spans_members (g : Gap) (first : Field) (more : List Field) :
    Spans true (members g first more) := by
  induction more generalizing first with
  | nil => exact first.spans
  | cons f fs ih =>
    exact first.spans.join (ih f) (.singleton _) ⟨_, rfl, trails_gap g⟩ ⟨_, rfl, leads_gap true g⟩

theorem plain_braced (first : Word) (more : List Word) : Plain (braced first more) :=
  (Plain.append (plain_of_isSimple rfl) (plain_phrase _)).append (plain_of_isSimple rfl)

theorem plain_source (path : ModulePath) : Plain (source path) := by
  have quoted : Plain [.literal path.quotation] :=
    plain_literal fun c member => not_sign_of_isPathChar (path.chars c member)
  have words : Plain [.gap .space, .word .fromWord, .gap .space] := plain_of_isSimple rfl
  exact words.append quoted

theorem Import.spans (i : Import) : Spans false i.atoms := by
  have closes (path : ModulePath) : ∃ z ∈ (source path).getLast?, closes z = true := ⟨_, rfl, rfl⟩
  cases i with
  | default name path | module name path =>
    exact ⟨sound_of_isSound rfl, ⟨_, rfl, rfl⟩, ⟨_, rfl, rfl⟩⟩
  | named first more path =>
    exact ((spans_braced first more).prepend (sound_of_isSound rfl) ⟨_, rfl, rfl⟩
      ⟨_, rfl, leads_gap _ _⟩).append (sound_source path) ⟨_, rfl, trails_gap _⟩ (closes path)
  | types first more path =>
    exact ((spans_braced first more).prepend (sound_of_isSound rfl) ⟨_, rfl, rfl⟩
      ⟨_, rfl, leads_gap _ _⟩).append (sound_source path) ⟨_, rfl, trails_gap _⟩ (closes path)

theorem Import.plain (i : Import) : Plain i.atoms := by
  cases i with
  | default name path | module name path =>
    exact Plain.append (plain_of_isSimple rfl) (plain_source path)
  | named first more path | types first more path =>
    exact (Plain.append (plain_of_isSimple rfl) (plain_braced first more)).append
      (plain_source path)

theorem Reexport.spans (e : Reexport) : Spans false e.atoms := by
  cases e with
  | named first more =>
    exact (spans_braced first more).prepend (sound_of_isSound rfl) ⟨_, rfl, rfl⟩
      ⟨_, rfl, leads_gap _ _⟩
  | all path => exact ⟨sound_of_isSound rfl, ⟨_, rfl, rfl⟩, ⟨_, rfl, rfl⟩⟩

theorem Reexport.plain (e : Reexport) : Plain e.atoms := by
  cases e with
  | named first more => exact Plain.append (plain_of_isSimple rfl) (plain_braced first more)
  | all path => exact Plain.append (plain_of_isSimple rfl) (plain_source path)

theorem whole_of_spans {named : Bool} {as : List Atom} (h : Spans named as)
    (calm : ∀ a ∈ as, Calm a) : Whole as := by
  obtain ⟨a, head, opening⟩ := h.head
  obtain ⟨z, last, closing⟩ := h.last
  refine ⟨h.sound, calm, ⟨a, head, isGap_of_opens opening⟩, ⟨z, last, ?_⟩⟩
  cases z with
  | gap g | brace g => cases closing
  | _ => rfl

theorem Import.whole (i : Import) : Whole i.atoms :=
  whole_of_spans i.spans fun a member => (i.plain a member).1

theorem Reexport.whole (e : Reexport) : Whole e.atoms :=
  whole_of_spans e.spans fun a member => (e.plain a member).1

theorem whole_ended {named : Bool} {as : List Atom} (h : Spans named as)
    (calm : ∀ a ∈ as ++ [.sign .semicolon], Calm a) : Whole (as ++ [.sign .semicolon]) := by
  have sound : Sound (as ++ [.sign .semicolon]) :=
    h.sound_append (.singleton _) ⟨_, rfl, trails_sign (by decide)⟩
  obtain ⟨a, head, opening⟩ := h.head
  refine ⟨sound, calm, ⟨a, ?_, isGap_of_opens opening⟩, ⟨_, List.getLast?_concat, rfl⟩⟩
  rw [List.head?_append, show as.head? = some a from head]
  rfl

theorem spans_defaultBody (name : Word) : Spans false (defaultBody name) :=
  ⟨sound_of_isSound rfl, ⟨_, rfl, rfl⟩, ⟨_, rfl, rfl⟩⟩

theorem plain_defaultExport (name : Word) : Plain (defaultExport name) :=
  plain_of_isSimple rfl

theorem whole_defaultExport (name : Word) : Whole (defaultExport name) :=
  whole_ended (spans_defaultBody name) fun a member => (plain_defaultExport name a member).1

namespace Declaration

theorem plain_declaring (kind : Word) : Plain (declaring kind) :=
  plain_of_isSimple rfl

theorem spans_signature (name : Word) (params : Params) : Spans true (signature name params) := by
  cases params with
  | none => exact ⟨sound_of_isSound rfl, ⟨_, rfl, rfl⟩, ⟨_, rfl, rfl⟩⟩
  | some ps =>
    exact (ps.spans.prepend (sound_of_isSound rfl) ⟨_, rfl, rfl⟩ ⟨_, rfl, leads_bracket _ _⟩).append
      (.singleton _) ⟨_, rfl, trails_bracket _⟩ ⟨_, rfl, rfl⟩

theorem plain_signature (name : Word) (params : Params) : Plain (signature name params) := by
  cases params with
  | none => exact plain_of_isSimple rfl
  | some ps =>
    exact (Plain.append (plain_of_isSimple rfl) (plain_phrase ps)).append
      (plain_of_isSimple rfl)

theorem calm_members (g : Gap) (first : Field) (more : List Field) :
    ∀ a ∈ members g first more, Calm a := by
  induction more generalizing first with
  | nil => exact fun a member => (plain_phrase first a member).1
  | cons f fs ih =>
    intro a member
    simp only [members, List.append_assoc, List.singleton_append, List.mem_append,
      List.mem_cons] at member
    rcases member with member | rfl | member
    · exact (plain_phrase first a member).1
    · exact trivial
    · exact ih f a member

theorem spans_constantBody (name : Word) (type : Ty) : Spans false (constantBody name type) :=
  type.spans.prepend (sound_of_isSound rfl) ⟨_, rfl, rfl⟩ ⟨_, rfl, leads_gap _ _⟩

theorem spans_typeAlias (name : Word) (type : Ty) : Spans false (typeAlias name type).atoms :=
  type.spans.prepend (sound_of_isSound rfl) ⟨_, rfl, rfl⟩ ⟨_, rfl, leads_gap _ _⟩

theorem spans_functionBody (name : Word) (params : Params) (result : Ty) :
    Spans false (functionBody name params result) :=
  ((spans_signature name params).prepend (sound_of_isSound rfl) ⟨_, rfl, rfl⟩
    ⟨_, rfl, leads_gap _ _⟩).join result.spans (sound_of_isSound rfl)
    ⟨_, rfl, trails_sign (by decide)⟩ ⟨_, rfl, leads_gap _ _⟩

/-- A declaration other than an interface with members stays on its line. -/
theorem plain (d : Declaration) (h : ∀ name first more, d ≠ interface name first more) :
    Plain d.atoms := by
  cases d with
  | constant name type =>
    exact (((plain_declaring _).append (plain_of_isSimple rfl)).append
      (plain_phrase type)).append (plain_of_isSimple rfl)
  | function name params result =>
    exact ((((plain_declaring _).append (plain_signature name params)).append
      (plain_of_isSimple rfl)).append (plain_phrase result)).append
      (plain_of_isSimple rfl)
  | typeAlias name type =>
    exact ((plain_declaring _).append (plain_of_isSimple rfl)).append (plain_phrase type)
  | marker name => exact (plain_declaring _).append (plain_of_isSimple rfl)
  | interface name first more => exact absurd rfl (h name first more)

/-- Every declaration stands by itself. -/
theorem whole (d : Declaration) : Whole d.atoms := by
  cases d with
  | constant name type =>
    exact whole_ended (spans_constantBody name type) fun a member =>
      ((constant name type).plain (by simp) a member).1
  | function name params result =>
    exact whole_ended (spans_functionBody name params result) fun a member =>
      ((function name params result).plain (by simp) a member).1
  | typeAlias name type =>
    exact whole_of_spans (spans_typeAlias name type) fun a member =>
      ((typeAlias name type).plain (by simp) a member).1
  | marker name =>
    have spans : Spans false (marker name).atoms :=
      ⟨sound_of_isSound rfl, ⟨_, rfl, rfl⟩, ⟨_, rfl, rfl⟩⟩
    exact whole_of_spans spans fun a member => ((marker name).plain (by simp) a member).1
  | interface name first more =>
    have spans : Spans false (interface name first more).atoms :=
      ((spans_members .indent first more).prepend (sound_of_isSound rfl) ⟨_, rfl, rfl⟩
        ⟨_, rfl, leads_brace _⟩).append (sound_of_isSound rfl) ⟨_, rfl, trails_gap _⟩ ⟨_, rfl, rfl⟩
    refine whole_of_spans spans fun a member => ?_
    simp only [atoms, List.append_assoc, List.mem_append] at member
    rcases member with member | member | member | member
    · exact (plain_declaring _ a member).1
    · revert a
      simp [Calm]
    · exact calm_members .indent first more a member
    · revert a
      simp [Calm]

end Declaration

/-! ### Lines -/

namespace Declaration

theorem joinLines_members (first : Field) (more : List Field) :
    joinLines ((first :: more).map memberLine) = ' ' :: ' ' :: spell (members .indent first more) := by
  induction more generalizing first with
  | nil => simp [members, memberLine]
  | cons f fs ih =>
    rw [List.map_cons, joinLines, joinPieces_cons_of_ne_nil _ _ (by simp), ← joinLines, ih]
    simp [members, memberLine, Gap.text]

theorem joinLines_lines (d : Declaration) : joinLines d.lines = spell d.atoms := by
  cases d with
  | interface name first more =>
    have members := joinLines_members first more
    simp only [joinLines] at members ⊢
    have whole : (interface name first more).lines =
        [spell (opening name)] ++ ((first :: more).map memberLine ++ [['}']]) := rfl
    rw [whole, joinPieces_append _ (by simp) (by simp),
      joinPieces_append _ (by simp) (by simp), members]
    simp [atoms, opening, joinPieces, Gap.text, Bracket.char, List.intercalate]
  | _ => exact joinLines_singleton _

theorem plain_opening (name : Word) : Plain (opening name) :=
  (plain_declaring _).append (plain_of_isSimple rfl)

theorem feed_free_lines (d : Declaration) : ∀ l ∈ d.lines, '\n' ∉ l := by
  have single (h : ∀ name first more, d ≠ interface name first more) : '\n' ∉ spell d.atoms :=
    feed_free_spell fun a member => (d.plain h a member).2
  cases d with
  | interface name first more =>
    intro l member
    simp only [lines, List.cons_append, List.mem_cons, List.mem_append, List.mem_map,
      List.not_mem_nil, or_false] at member
    rcases member with rfl | ⟨f, -, rfl⟩ | rfl
    · exact feed_free_spell fun a member => (plain_opening name a member).2
    · have free : '\n' ∉ spell f.atoms := feed_free_spell fun a member => (plain_phrase f a member).2
      simpa [memberLine] using free
    · decide
  | _ =>
    intro l member
    rw [List.mem_singleton.1 member]
    exact single (by simp)

end Declaration

namespace CommentText

theorem exists_line {t : CommentText} {l : Text} (h : l ∈ t.lines) :
    ∃ mark rest, l = mark ++ rest ∧ mark ∈ ["/**".toList, " *".toList] ∧ rest ∈ t.opening :: t.more := by
  simp only [lines, List.mem_cons, List.mem_map] at h
  rcases h with rfl | ⟨r, member, rfl⟩
  · exact ⟨_, _, rfl, by simp, by simp⟩
  · exact ⟨_, _, rfl, by simp, by simp [member]⟩

/-- A line without blanks at its end, behind a mark. -/
theorem last_marked {mark r : Text} (star : mark.getLast? = some '*')
    (solid : ∀ c ∈ r.getLast?, isBlank c = false) :
    ∃ c ∈ (mark ++ r).getLast?, isBlank c = false := by
  cases final : r.getLast? with
  | none => exact ⟨'*', by rw [List.getLast?_append, final, star]; rfl, by decide⟩
  | some c => exact ⟨c, by rw [List.getLast?_append, final]; rfl, solid c final⟩

/-- The lines hold nothing that tidying looks at, and end with a solid character. -/
theorem line_free {t : CommentText} {l : Text} (h : l ∈ t.lines) :
    (∀ c ∈ l, c ∉ ['{', '}', ';', '\n']) ∧ ∃ c ∈ l.getLast?, isBlank c = false := by
  obtain ⟨mark, rest, rfl, isMark, member⟩ := exists_line h
  have marks : ∀ mark ∈ ["/**".toList, " *".toList], (∀ c ∈ mark, c ∉ ['{', '}', ';', '\n']) ∧
      mark.getLast? = some '*' := by decide
  obtain ⟨free, star⟩ := marks mark isMark
  refine ⟨fun c found => ?_, last_marked star (t.solid rest member)⟩
  rcases List.mem_append.1 found with found | found
  · exact free c found
  · exact t.calm rest member c found

theorem lines_ne_nil (t : CommentText) : t.lines ≠ [] := by simp [lines]

/-- The block ends with a solid character. -/
theorem last_joinLines (t : CommentText) :
    ∃ c ∈ (joinLines t.lines).getLast?, isBlank c = false := by
  obtain ⟨front, l, split⟩ := (List.eq_nil_or_concat' t.lines).resolve_left t.lines_ne_nil
  have member : l ∈ t.lines := by simp [split]
  obtain ⟨c, last, solid⟩ := (line_free member).2
  rw [joinLines, split]
  exact ⟨c, getLast?_joinPieces front last, solid⟩

theorem settles (t : CommentText) : Settles (joinLines t.lines) (joinLines t.lines) := by
  have some_char {l : Text} (member : l ∈ t.lines) : l ≠ [] := by
    rintro rfl
    obtain ⟨c, last, -⟩ := (line_free member).2
    cases last
  have head : (joinLines t.lines).head? = some '/' := by
    cases empty : t.more <;> simp [lines, empty, joinLines, joinPieces, List.intercalate]
  exact settles_of_free t.lines_ne_nil (fun l member => ⟨some_char member, (line_free member).1⟩)
    ⟨'/', head, by decide⟩ t.last_joinLines

/-- The text of a block with these lines. -/
theorem text_block (t : CommentText) : CommentBlock.text ⟨t.lines⟩ = joinLines t.lines := by
  obtain ⟨c, last, solid⟩ := t.last_joinLines
  rw [CommentBlock.text, flatMap_concat_mark '\n' t.lines_ne_nil,
    trimRight_append_blank (w := ['\n']) (by decide)]
  exact trimRight_of_getLast last solid

end CommentText

end Canonical

end Ambient
