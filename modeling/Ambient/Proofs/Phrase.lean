import Ambient.Nesting.Body
import Ambient.Proofs.Atom

/-!
The grammar of types that stand on one line, in conventional spacing. Every phrase is written in
atoms and has balanced brackets, and a function header that runs into a phrase where a type is
expected never takes a brace of it for the body.
-/

namespace Ambient

/-- What stands between the items of a list. -/
inductive Delimiter
  | comma
  | semicolon
  deriving DecidableEq, Repr

def Delimiter.sign : Delimiter → Sign
  | comma => .comma
  | semicolon => .semicolon

inductive Connective
  | union
  | intersection
  deriving DecidableEq, Repr

def Connective.sign : Connective → Sign
  | union => .bar
  | intersection => .ampersand

/-- What a phrase is. -/
inductive Category
  | type
  /-- A type, with a name before it or without. -/
  | item (named : Bool)
  /-- One or more items. -/
  | list (named : Bool) (delimiter : Delimiter)

/-- The phrase starts with the name of an item. -/
def Category.isNamed : Category → Bool
  | .type => false
  | .item named | .list named _ => named

/-- A phrase whose literals hold only characters of the class `p`. -/
inductive Phrase (p : Char → Bool) : Category → Type
  | name (n : Word) : Phrase p .type
  | literal (q : Quotation) (inside : ∀ c ∈ q.body, p c = true) : Phrase p .type
  | array (t : Phrase p .type) : Phrase p .type
  | generic (n : Word) (arguments : Phrase p (.list false .comma)) : Phrase p .type
  | tuple (elements : Phrase p (.list false .comma)) : Phrase p .type
  | emptyObject : Phrase p .type
  | object {d : Delimiter} (fields : Phrase p (.list true d)) : Phrase p .type
  | function (params : Phrase p (.list true .comma)) (result : Phrase p .type) : Phrase p .type
  /-- The type of a function without parameters. -/
  | thunk (result : Phrase p .type) : Phrase p .type
  | group (t : Phrase p .type) : Phrase p .type
  | joined (connective : Connective) (left right : Phrase p .type) : Phrase p .type
  | keyof (t : Phrase p .type) : Phrase p .type
  | typeof (n : Word) : Phrase p .type
  | unnamed (t : Phrase p .type) : Phrase p (.item false)
  | named (n : Word) (t : Phrase p .type) : Phrase p (.item true)
  | single {named : Bool} {d : Delimiter} (x : Phrase p (.item named)) : Phrase p (.list named d)
  | cons {named : Bool} {d : Delimiter} (x : Phrase p (.item named)) (xs : Phrase p (.list named d)) :
      Phrase p (.list named d)

/-- A type on one line. -/
abbrev TypeText (p : Char → Bool) : Type := Phrase p .type

namespace Phrase

open Atom

variable {p : Char → Bool} {k : Category}

/-- The arrow of a function type, after the parameter list. -/
def arrow : List Atom := [.bracket .closeParen, .gap .space, .sign .arrow, .gap .space]

def atoms {k : Category} : Phrase p k → List Atom
  | name n => [.word n]
  | literal q _ => [.literal q]
  | array t => t.atoms ++ [.bracket .openSquare, .bracket .closeSquare]
  | generic n arguments => [.word n, .sign .less] ++ arguments.atoms ++ [.sign .greater]
  | tuple elements => [.bracket .openSquare] ++ elements.atoms ++ [.bracket .closeSquare]
  | emptyObject => [.braces]
  | object fields =>
    [.brace (some .space)] ++ fields.atoms ++ [.gap .space, .bracket .closeBrace]
  | function params result => [.bracket .openParen] ++ params.atoms ++ arrow ++ result.atoms
  | thunk result => .bracket .openParen :: arrow ++ result.atoms
  | group t => [.bracket .openParen] ++ t.atoms ++ [.bracket .closeParen]
  | joined c left right =>
    left.atoms ++ [.gap .space, .sign c.sign, .gap .space] ++ right.atoms
  | keyof t => [.word .keyofWord, .gap .space] ++ t.atoms
  | typeof n => [.word .typeofWord, .gap .space, .word n]
  | unnamed t => t.atoms
  | named n t => [.word n, .sign .colon, .gap .space] ++ t.atoms
  | single x => x.atoms
  | @cons _ _ d x xs => x.atoms ++ [.sign d.sign, .gap .space] ++ xs.atoms

/-! ### Phrases are sound -/

/-- Atoms that a phrase may start with; one that starts with a name starts with a word. -/
def opens : Bool → Atom → Bool
  | _, .word _ => true
  | false, .literal _ | false, .brace (some .space) | false, .braces => true
  | false, .bracket .openParen | false, .bracket .openSquare => true
  | _, _ => false

/-- Atoms that a phrase or a declaration may end with. -/
def closes : Atom → Bool
  | .word _ | .literal _ | .sign .greater | .braces => true
  | .bracket .closeSquare | .bracket .closeBrace | .bracket .closeParen => true
  | _ => false

theorem isGap_of_opens {named : Bool} {a : Atom} (h : opens named a = true) : a.isGap = false := by
  cases a with
  | gap g => cases named <;> cases h
  | _ => rfl

/-- The atom may stand right before a phrase. -/
def Leads (named : Bool) (x : Atom) : Prop := ∀ a, opens named a = true → Follows x a = true

/-- The atom may stand right after a phrase. -/
def Trails (y : Atom) : Prop := ∀ a, closes a = true → Follows a y = true

/-- Characters that a phrase may end with. -/
def isFinal (c : Char) : Bool := isNameChar c || ['"', '\'', '>', ']', '}', ')'].contains c

theorem isFinal_of_closes {a : Atom} (h : closes a = true) {c : Char} (last : c ∈ a.text.getLast?) :
    isFinal c = true := by
  have known : ∀ c ∈ a.lastSigns, isFinal c = true := by
    cases a with
    | word w | literal q =>
      simp only [lastSigns]
      decide
    | bracket b => cases b <;> first | decide | cases h
    | sign s => cases s <;> first | decide | cases h
    | gap g | brace g => cases h
    | braces => decide
  rcases last_class last with ⟨-, isName⟩ | sign
  · rw [isFinal, isName, Bool.true_or]
  · exact known c sign

theorem isBlank_of_isFinal {c : Char} (h : isFinal c = true) : isBlank c = false := by
  rcases Bool.or_eq_true_iff.1 h with isName | sign
  · exact isBlank_of_isNameChar isName
  · have known : ∀ c ∈ ['"', '\'', '>', ']', '}', ')'], isBlank c = false := by decide
    exact known c (by simpa using sign)

theorem leads_gap (named : Bool) (g : Gap) : Leads named (.gap g) := by
  intro a h
  cases a with
  | gap g | sign s => cases named <;> cases h
  | _ => rfl

theorem leads_less (named : Bool) : Leads named (.sign .less) := by
  intro a h
  cases a with
  | sign s => cases named <;> cases h
  | _ => rfl

theorem leads_bracket (named : Bool) (b : Bracket) : Leads named (.bracket b) := by
  intro a _
  cases a <;> rfl

theorem leads_brace (g : Gap) : Leads true (.brace (some g)) := by
  intro a h
  cases a with
  | word w => rfl
  | _ => simp [opens] at h

theorem trails_gap (g : Gap) : Trails (.gap g) := by
  intro a h
  cases a with
  | gap g | brace g => cases h
  | sign s => cases s <;> rfl
  | _ => rfl

theorem trails_bracket (b : Bracket) : Trails (.bracket b) := by
  intro a h
  cases a with
  | sign s => cases s <;> first | rfl | cases h
  | brace g => cases h
  | _ => rfl

theorem trails_sign {s : Sign} (h : s ≠ .assign ∧ s ≠ .arrow) : Trails (.sign s) := by
  intro a closing
  cases a with
  | gap g | brace g => cases closing
  | sign s' =>
    cases s' with
    | greater => simp [Follows, h]
    | _ => cases closing
  | _ => rfl

/-- The atoms can stand where a phrase stands. -/
structure Spans (named : Bool) (as : List Atom) : Prop where
  sound : Sound as
  head : ∃ a ∈ as.head?, opens named a = true
  last : ∃ a ∈ as.getLast?, closes a = true

section
variable {named other : Bool} {as bs : List Atom}

theorem Spans.sound_prepend {xs : List Atom} (h : Spans named as) (sound : Sound xs)
    (last : ∃ x ∈ xs.getLast?, Leads named x) : Sound (xs ++ as) := by
  obtain ⟨x, final, leads⟩ := last
  obtain ⟨b, first, opens⟩ := h.head
  refine List.isChain_append.2 ⟨sound, h.sound, fun y isLast c isHead => ?_⟩
  obtain rfl : x = y := Option.some.inj (final.symm.trans isLast)
  obtain rfl : b = c := Option.some.inj (first.symm.trans isHead)
  exact leads b opens

theorem Spans.prepend {xs : List Atom} (h : Spans named as) (sound : Sound xs)
    (head : ∃ a ∈ xs.head?, opens other a = true) (last : ∃ x ∈ xs.getLast?, Leads named x) :
    Spans other (xs ++ as) := by
  obtain ⟨a, first, opening⟩ := head
  obtain ⟨z, final, closing⟩ := h.last
  refine ⟨h.sound_prepend sound last, ⟨a, ?_, opening⟩, ⟨z, ?_, closing⟩⟩
  · rw [List.head?_append, show xs.head? = some a from first]
    rfl
  · rw [List.getLast?_append, show as.getLast? = some z from final]
    rfl

theorem Spans.sound_append {ys : List Atom} (h : Spans named as) (sound : Sound ys)
    (head : ∃ y ∈ ys.head?, Trails y) : Sound (as ++ ys) := by
  obtain ⟨y, first, trails⟩ := head
  obtain ⟨b, final, closes⟩ := h.last
  refine List.isChain_append.2 ⟨h.sound, sound, fun x isLast c isHead => ?_⟩
  obtain rfl : b = x := Option.some.inj (final.symm.trans isLast)
  obtain rfl : y = c := Option.some.inj (first.symm.trans isHead)
  exact trails b closes

theorem Spans.append {ys : List Atom} (h : Spans named as) (sound : Sound ys)
    (head : ∃ y ∈ ys.head?, Trails y) (last : ∃ z ∈ ys.getLast?, closes z = true) :
    Spans named (as ++ ys) := by
  obtain ⟨z, final, closing⟩ := last
  obtain ⟨a, first, opening⟩ := h.head
  refine ⟨h.sound_append sound head, ⟨a, ?_, opening⟩, ⟨z, ?_, closing⟩⟩
  · rw [List.head?_append, show as.head? = some a from first]
    rfl
  · rw [List.getLast?_append, show ys.getLast? = some z from final]
    rfl

theorem Spans.last_char (h : Spans named as) : ∃ c ∈ (spell as).getLast?, isFinal c = true := by
  obtain ⟨z, last, closing⟩ := h.last
  obtain ⟨front, rfl⟩ := List.getLast?_eq_some_iff.1 last
  obtain ⟨c, final⟩ := exists_last z
  exact ⟨c, (spell_last front z).trans final, isFinal_of_closes closing final⟩

/-- Atoms before and after a phrase. -/
theorem Spans.sound_between {xs ys : List Atom} (h : Spans named as) (soundBefore : Sound xs)
    (soundAfter : Sound ys) (last : ∃ x ∈ xs.getLast?, Leads named x)
    (head : ∃ y ∈ ys.head?, Trails y) : Sound (xs ++ as ++ ys) := by
  have nonempty : as ≠ [] := by
    rintro rfl
    obtain ⟨a, first, -⟩ := h.head
    cases first
  exact (h.sound_prepend soundBefore last).append_overlap (h.sound_append soundAfter head) nonempty

/-- Two phrases with atoms between them. -/
theorem Spans.join {mid : List Atom} (h : Spans named as) (h' : Spans other bs) (sound : Sound mid)
    (head : ∃ y ∈ mid.head?, Trails y) (last : ∃ x ∈ mid.getLast?, Leads other x) :
    Spans named (as ++ mid ++ bs) := by
  obtain ⟨y, first, trails⟩ := head
  obtain ⟨z, final, closing⟩ := h'.last
  rw [List.append_assoc]
  refine h.append (h'.sound_prepend sound last) ⟨y, ?_, trails⟩ ⟨z, ?_, closing⟩
  · rw [List.head?_append, show mid.head? = some y from first]
    rfl
  · rw [List.getLast?_append, show bs.getLast? = some z from final]
    rfl

end

theorem spans (x : Phrase p k) : Spans k.isNamed x.atoms := by
  induction x with
  | name n | literal q _ | emptyObject =>
    exact ⟨.singleton _, ⟨_, rfl, by rfl⟩, ⟨_, rfl, rfl⟩⟩
  | array t ih => exact ih.append (sound_of_isSound rfl) ⟨_, rfl, trails_bracket _⟩ ⟨_, rfl, rfl⟩
  | generic n arguments ih =>
    exact (ih.prepend (sound_of_isSound rfl) ⟨_, rfl, rfl⟩ ⟨_, rfl, leads_less _⟩).append (.singleton _)
      ⟨_, rfl, trails_sign (by decide)⟩ ⟨_, rfl, rfl⟩
  | tuple elements ih =>
    exact (ih.prepend (.singleton _) ⟨_, rfl, by rfl⟩ ⟨_, rfl, leads_bracket _ _⟩).append (.singleton _)
      ⟨_, rfl, trails_bracket _⟩ ⟨_, rfl, rfl⟩
  | object fields ih =>
    exact (ih.prepend (.singleton _) ⟨_, rfl, by rfl⟩ ⟨_, rfl, leads_brace _⟩).append
      (sound_of_isSound rfl) ⟨_, rfl, trails_gap _⟩ ⟨_, rfl, rfl⟩
  | function params result ih ih' =>
    exact (ih.prepend (.singleton _) ⟨_, rfl, by rfl⟩ ⟨_, rfl, leads_bracket _ _⟩).join ih'
      (by simp [Follows, arrow]) ⟨_, rfl, trails_bracket _⟩ ⟨_, rfl, leads_gap _ _⟩
  | thunk result ih =>
    exact ih.prepend (by simp [Follows, arrow]) ⟨_, rfl, by rfl⟩ ⟨_, rfl, leads_gap _ _⟩
  | group t ih =>
    exact (ih.prepend (.singleton _) ⟨_, rfl, by rfl⟩ ⟨_, rfl, leads_bracket _ _⟩).append (.singleton _)
      ⟨_, rfl, trails_bracket _⟩ ⟨_, rfl, rfl⟩
  | joined c left right ih ih' =>
    exact ih.join ih' (by cases c <;> decide) ⟨_, rfl, trails_gap _⟩ ⟨_, rfl, leads_gap _ _⟩
  | keyof t ih => exact ih.prepend (sound_of_isSound rfl) ⟨_, rfl, rfl⟩ ⟨_, rfl, leads_gap _ _⟩
  | typeof n => exact ⟨sound_of_isSound rfl, ⟨_, rfl, rfl⟩, ⟨_, rfl, rfl⟩⟩
  | unnamed t ih => exact ih
  | named n t ih => exact ih.prepend (sound_of_isSound rfl) ⟨_, rfl, rfl⟩ ⟨_, rfl, leads_gap _ _⟩
  | single x ih => exact ih
  | @cons _ d x xs ih ih' =>
    have delimits : Trails (.sign d.sign) := trails_sign (by cases d <;> decide)
    exact ih.join ih' (by cases d <;> decide) ⟨_, rfl, delimits⟩ ⟨_, rfl, leads_gap _ _⟩

/-! ### Balanced brackets -/

theorem total_shift (x : Phrase p k) :
    total shift x.atoms = 0 ∧ total braceShift x.atoms = 0 := by
  induction x <;> simp_all [atoms, arrow, shift, braceShift, total, total_append]

/-! ### Function headers -/

open Nesting

/-- The header after some lexemes; gaps do not change it. -/
def through (h : Header) (ls : List Lexeme) : Header :=
  ls.foldl (fun h l => if l.kind.isGap then h else h.advance ⟨0, l.kind, l.text⟩) h

theorem paramsClosed_through {h : Header} (closed : h.paramsClosed = true) (ls : List Lexeme) :
    (through h ls).paramsClosed = true := by
  induction ls generalizing h with
  | nil => exact closed
  | cons l ls ih =>
    rw [through, List.foldl_cons]
    refine ih ?_
    split
    · exact closed
    · simp [Header.advance, closed]

theorem previous_through (h : Header) (ls : List Lexeme) {l : Lexeme}
    (solid : l.kind.isGap = false) : (through h (ls ++ [l])).previous = l.text := by
  simp [through, solid, Header.advance]

/-- Reading the atoms takes a function header from `h` to `h'`, without finding the body. -/
structure Passes (h : Header) (as : List Atom) (h' : Header) : Prop where
  run : ∀ start ts, bodyFrom h (Lexeme.place start (as.flatMap lexemes) ++ ts) = bodyFrom h' ts
  reached : h' = through h (as.flatMap lexemes)

theorem Passes.refl (h : Header) : Passes h [] h := ⟨fun _ _ => rfl, rfl⟩

theorem Passes.append {h h' h'' : Header} {as bs : List Atom} (first : Passes h as h')
    (second : Passes h' bs h'') : Passes h (as ++ bs) h'' := by
  refine ⟨fun start ts => ?_, ?_⟩
  · rw [List.flatMap_append, Lexeme.place_append, List.append_assoc, first.run, second.run]
  · rw [second.reached, first.reached, List.flatMap_append]
    exact List.foldl_append.symm

/-- Only the lexemes matter. -/
theorem Passes.congr {h h' : Header} {as bs : List Atom} (passes : Passes h as h')
    (same : as.flatMap lexemes = bs.flatMap lexemes) : Passes h bs h' :=
  ⟨fun start ts => same ▸ passes.run start ts, same ▸ passes.reached⟩

/-- A brace would open a type here. -/
def Ready (h : Header) : Prop := 0 < h.depth ∨ h.depth = 0 ∧ h.previous ∈ typePositions

theorem passes_lexeme {a : Atom} {l : Lexeme} {h : Header} (single : a.lexemes = [l])
    (solid : l.kind.isGap = false) (opens : h.bodyOpensAt ⟨0, l.kind, l.text⟩ = false) :
    Passes h [a] (h.advance ⟨0, l.kind, l.text⟩) := by
  refine ⟨fun start ts => ?_, ?_⟩
  · have opens' : h.bodyOpensAt ⟨start, l.kind, l.text⟩ = false := opens
    have advance : h.advance ⟨start, l.kind, l.text⟩ = h.advance ⟨0, l.kind, l.text⟩ := rfl
    rw [List.flatMap_singleton, single, Lexeme.place, Lexeme.place, List.cons_append, bodyFrom,
      solid, opens', advance]
    rfl
  · simp [through, single, solid]

/-- A token that is neither a bracket nor an operator leaves the depth as it is. -/
theorem passes_plain {a : Atom} {l : Lexeme} (single : a.lexemes = [l])
    (plain : l.kind.isGap = false ∧ l.kind ≠ .bracket ∧ l.kind ≠ .operator) (h : Header) :
    ∃ h', Passes h [a] h' ∧ h'.depth = h.depth ∧ h'.previous = l.text := by
  refine ⟨_, passes_lexeme single plain.1 ?_, ?_, rfl⟩
  · simp [Header.bodyOpensAt, Token.is, plain.2.1]
  · have zero : Token.shift ⟨0, l.kind, l.text⟩ = 0 := (shift_of_kind plain.2.1).1
    simp [Header.advance, Token.depthAfter, Token.is, plain.2.2, zero]

theorem passes_word (w : Word) (h : Header) :
    ∃ h', Passes h [.word w] h' ∧ h'.depth = h.depth ∧ h'.previous = w.text := by
  refine passes_plain (a := .word w) (l := ⟨w.kind, w.text⟩) rfl ?_ h
  simp only
  rcases w.kind_eq with kind | kind <;> rw [kind] <;> decide

theorem passes_literal (q : Quotation) (h : Header) :
    ∃ h', Passes h [.literal q] h' ∧ h'.depth = h.depth ∧ h'.previous = q.text := by
  refine passes_plain (a := .literal q) (l := ⟨q.kind, q.text⟩) rfl ?_ h
  simp only [Quotation.kind]
  split <;> decide

theorem passes_gap (g : Gap) (h : Header) : Passes h [.gap g] h := ⟨fun _ _ => rfl, rfl⟩

theorem passes_bracket (b : Bracket) (h : Header) :
    ∃ h', Passes h [.bracket b] h' ∧ h'.depth = h.depth + shift (.bracket b) := by
  refine ⟨_, passes_lexeme rfl rfl ?_, ?_⟩
  · cases b <;> rfl
  · cases b <;> rfl

/-- What a sign adds to the depth of a header. -/
def angleShift : Sign → Int
  | .less => 1
  | .greater => -1
  | _ => 0

/-- A closing angle sign has to close something. -/
theorem passes_sign {s : Sign} {h : Header} (closes : s = .greater → 0 < h.depth) :
    ∃ h', Passes h [.sign s] h' ∧ h'.depth = h.depth + angleShift s ∧ h'.previous = s.text := by
  refine ⟨_, passes_lexeme rfl rfl ?_, ?_, rfl⟩
  · rfl
  · cases s with
    | greater =>
      have deep := closes rfl
      simp [Header.advance, Token.depthAfter, Token.is, Sign.text, angleShift, deep]
      rfl
    | _ =>
      simp [Header.advance, Token.depthAfter, Token.is, Sign.text, angleShift, Token.shift,
        Token.isOpener, Token.isCloser]

/-- A brace has to stand where a type is expected. -/
theorem passes_brace {h : Header} (ready : Ready h) :
    ∃ h', Passes h [.brace none] h' ∧ h'.depth = h.depth + 1 := by
  have shut : h.bodyOpensAt ⟨0, .bracket, ['{']⟩ = false := by
    rcases ready with deep | ⟨-, typed⟩
    · have nonzero : (h.depth == 0) = false := by simpa using Int.ne_of_gt deep
      simp [Header.bodyOpensAt, nonzero]
    · simp [Header.bodyOpensAt, typed]
  exact ⟨_, passes_lexeme rfl rfl shut, rfl⟩

/-- Where a phrase of the category may stand in a header. -/
def Expects : Category → Header → Prop
  | .type, h => Ready h
  | _, h => 0 < h.depth

theorem Ready.nonneg {h : Header} (ready : Ready h) : 0 ≤ h.depth := by
  rcases ready with deep | ⟨zero, -⟩ <;> omega

theorem ready_of_previous {h : Header} (nonneg : 0 ≤ h.depth) (typed : h.previous ∈ typePositions) :
    Ready h := by
  rcases Int.lt_or_eq_of_le nonneg with deep | zero
  · exact .inl deep
  · exact .inr ⟨zero.symm, typed⟩

theorem passes_arrow (h : Header) :
    ∃ h', Passes h arrow h' ∧ h'.depth = h.depth - 1 ∧ h'.previous = Sign.text .arrow := by
  obtain ⟨h₁, close, depth⟩ := passes_bracket .closeParen h
  obtain ⟨h₂, sign, same, previous⟩ := passes_sign (s := .arrow) (h := h₁) (by simp)
  refine ⟨h₂, ((close.append (passes_gap .space h₁)).append sign).append (passes_gap .space h₂), ?_,
    previous⟩
  simp only [shift, angleShift] at depth same
  omega

/-- What a header runs through one level deeper, it runs through between the atoms that open the level
and those that close it. -/
theorem Passes.enclosed {h h₁ : Header} {front inside back : List Atom} (opening : Passes h front h₁)
    (deeper : h₁.depth = h.depth + 1) (nonneg : 0 ≤ h.depth)
    (inner : 0 < h₁.depth → ∃ h₂, Passes h₁ inside h₂ ∧ h₂.depth = h₁.depth)
    (closing : ∀ h₂ : Header, 0 < h₂.depth → ∃ h₃, Passes h₂ back h₃ ∧ h₃.depth = h₂.depth - 1) :
    ∃ h', Passes h (front ++ inside ++ back) h' ∧ h'.depth = h.depth := by
  obtain ⟨h₂, within, depth₂⟩ := inner (by omega)
  obtain ⟨h₃, closes, depth₃⟩ := closing h₂ (by omega)
  exact ⟨h₃, (opening.append within).append closes, by omega⟩

theorem passes_greater (h : Header) (deep : 0 < h.depth) :
    ∃ h', Passes h [.sign .greater] h' ∧ h'.depth = h.depth - 1 := by
  obtain ⟨h₁, greater, depth, -⟩ := passes_sign (s := .greater) (h := h) (fun _ => deep)
  exact ⟨h₁, greater, depth⟩

/-- **A header runs through a phrase.** Where a type is expected, none of its braces is taken for
the body, and the depth is the same behind it. -/
theorem passes_phrase (x : Phrase p k) {h : Header} (ready : Expects k h) :
    ∃ h', Passes h x.atoms h' ∧ h'.depth = h.depth := by
  induction x generalizing h with
  | name n =>
    obtain ⟨h₁, word, depth₁, -⟩ := passes_word n h
    exact ⟨h₁, word, depth₁⟩
  | literal q _ =>
    obtain ⟨h₁, literal, depth₁, -⟩ := passes_literal q h
    exact ⟨h₁, literal, depth₁⟩
  | array t ih =>
    obtain ⟨h₁, type, depth₁⟩ := ih ready
    obtain ⟨h₂, opening, depth₂⟩ := passes_bracket .openSquare h₁
    obtain ⟨h₃, closing, depth₃⟩ := passes_bracket .closeSquare h₂
    refine ⟨h₃, type.append (opening.append closing), ?_⟩
    simp only [shift] at depth₂ depth₃
    omega
  | generic n arguments ih =>
    obtain ⟨h₁, word, depth₁, -⟩ := passes_word n h
    obtain ⟨h₂, less, depth₂, -⟩ := passes_sign (s := .less) (h := h₁) (by simp)
    have deeper : h₂.depth = h.depth + 1 := by rw [depth₂, depth₁, angleShift]
    exact (word.append less).enclosed deeper (Ready.nonneg ready) ih passes_greater
  | tuple elements ih =>
    obtain ⟨h₁, opening, depth₁⟩ := passes_bracket .openSquare h
    exact opening.enclosed depth₁ (Ready.nonneg ready) ih fun h₂ _ => passes_bracket .closeSquare h₂
  | emptyObject =>
    obtain ⟨h₁, opening, depth₁⟩ := passes_brace ready
    obtain ⟨h₂, closing, depth₂⟩ := passes_bracket .closeBrace h₁
    refine ⟨h₂, (opening.append closing).congr rfl, ?_⟩
    simp only [shift] at depth₂
    omega
  | object fields ih =>
    obtain ⟨h₁, opening, depth₁⟩ := passes_brace ready
    have opened : Passes h [.brace (some .space)] h₁ :=
      (opening.append (passes_gap .space h₁)).congr rfl
    refine opened.enclosed depth₁ (Ready.nonneg ready) ih fun h₂ _ => ?_
    obtain ⟨h₃, closing, depth₃⟩ := passes_bracket .closeBrace h₂
    exact ⟨h₃, (passes_gap .space h₂).append closing, depth₃⟩
  | function params result ih ih' =>
    obtain ⟨h₁, opening, depth₁⟩ := passes_bracket .openParen h
    have nonneg := Ready.nonneg ready
    simp only [shift] at depth₁
    have deep : 0 < h₁.depth := by omega
    obtain ⟨h₂, inner, depth₂⟩ := ih deep
    obtain ⟨h₃, arrow, depth₃, previous⟩ := passes_arrow h₂
    obtain ⟨h₄, type, depth₄⟩ := ih' (h := h₃)
      (ready_of_previous (by omega) (by rw [previous]; decide))
    exact ⟨h₄, ((opening.append inner).append arrow).append type, by omega⟩
  | thunk result ih =>
    obtain ⟨h₁, opening, depth₁⟩ := passes_bracket .openParen h
    obtain ⟨h₂, arrow, depth₂, previous⟩ := passes_arrow h₁
    have nonneg := Ready.nonneg ready
    simp only [shift] at depth₁
    obtain ⟨h₃, type, depth₃⟩ := ih (h := h₂)
      (ready_of_previous (by omega) (by rw [previous]; decide))
    exact ⟨h₃, (opening.append arrow).append type, by omega⟩
  | group t ih =>
    obtain ⟨h₁, opening, depth₁⟩ := passes_bracket .openParen h
    exact opening.enclosed depth₁ (Ready.nonneg ready) (fun deep => ih (.inl deep))
      fun h₂ _ => passes_bracket .closeParen h₂
  | joined c left right ih ih' =>
    obtain ⟨h₁, before, depth₁⟩ := ih ready
    have plain : c.sign ≠ .greater ∧ angleShift c.sign = 0 ∧ c.sign.text ∈ typePositions := by
      cases c <;> decide
    obtain ⟨h₂, sign, depth₂, previous⟩ := passes_sign (s := c.sign) (h := h₁)
      (fun greater => absurd greater plain.1)
    have nonneg := Ready.nonneg ready
    obtain ⟨h₃, after, depth₃⟩ := ih' (h := h₂)
      (ready_of_previous (by omega) (previous ▸ plain.2.2))
    have middle := ((passes_gap .space h₁).append sign).append (passes_gap .space h₂)
    exact ⟨h₃, (before.append middle).append after, by omega⟩
  | keyof t ih =>
    obtain ⟨h₁, word, depth₁, previous⟩ := passes_word .keyofWord h
    have nonneg := Ready.nonneg ready
    obtain ⟨h₂, type, depth₂⟩ := ih (h := h₁)
      (ready_of_previous (by omega) (by rw [previous]; decide))
    exact ⟨h₂, (word.append (passes_gap .space h₁)).append type, by omega⟩
  | typeof n =>
    obtain ⟨h₁, word, depth₁, -⟩ := passes_word .typeofWord h
    obtain ⟨h₂, name, depth₂, -⟩ := passes_word n h₁
    exact ⟨h₂, word.append ((passes_gap .space h₁).append name), by omega⟩
  | unnamed t ih => exact ih (.inl ready)
  | named n t ih =>
    obtain ⟨h₁, word, depth₁, -⟩ := passes_word n h
    obtain ⟨h₂, colon, depth₂, -⟩ := passes_sign (s := .colon) (h := h₁) (by simp)
    simp only [angleShift, Expects] at depth₂ ready
    obtain ⟨h₃, type, depth₃⟩ := ih (h := h₂) (.inl (by omega))
    exact ⟨h₃, (word.append (colon.append (passes_gap .space h₂))).append type, by omega⟩
  | single x ih => exact ih ready
  | @cons _ d x xs ih ih' =>
    obtain ⟨h₁, before, depth₁⟩ := ih ready
    have plain : d.sign ≠ .greater ∧ angleShift d.sign = 0 := by cases d <;> decide
    obtain ⟨h₂, sign, depth₂, -⟩ := passes_sign (s := d.sign) (h := h₁)
      (fun greater => absurd greater plain.1)
    have deep : 0 < h₂.depth := by
      simp only [Expects] at ready
      omega
    obtain ⟨h₃, after, depth₃⟩ := ih' deep
    exact ⟨h₃, (before.append (sign.append (passes_gap .space h₂))).append after, by omega⟩

/-- Between parentheses a header runs through the parameters, where there are any. -/
theorem passes_params (params : Option (Phrase p (.list true .comma))) {h : Header}
    (deep : 0 < h.depth) :
    ∃ h', Passes h (params.elim [] Phrase.atoms) h' ∧ h'.depth = h.depth := by
  cases params with
  | none => exact ⟨h, .refl h, rfl⟩
  | some ps => exact passes_phrase ps deep

end Phrase

end Ambient
