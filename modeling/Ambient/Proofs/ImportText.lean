import Ambient.Proofs.Expression
import Ambient.Proofs.Parts

/-!
What an import statement imports, and how it may be written. `NamedImport.read?` takes the words, the
signs and the quoted module of a statement, and passes over what stands between them. An `ImportText`
is a statement with all its blanks and comments; it is read as what it says (`read?_text`).
-/

namespace Ambient

open Lexer

/-! ### Reading -/

inductive Symbol
  | word (t : Text)
  | sign (c : Char)
  /-- A literal with its quotes. -/
  | literal (t : Text)
  deriving DecidableEq

/-- Characters of words: neither blank nor a sign. All identifiers consist of them. -/
def isLetter (c : Char) : Bool := isDull c && !isBlank c

/-- The words, signs and literals of a text, without blanks and comments. -/
def symbols : Text → List Symbol
  | [] => []
  | c :: r =>
    if isBlank c then symbols r
    else if isDull c then .word (c :: r.takeWhile isLetter) :: symbols (r.dropWhile isLetter)
    else if c = '"' ∨ c = '\'' then
      match _h : quotedTail? c r with
      | some (body, rest) => .literal (c :: body) :: symbols rest
      | none => .sign c :: symbols r
    else if c = '/' ∧ r.head? = some '*' then symbols (blockTail r.tail).2
    else if c = '/' ∧ r.head? = some '/' then symbols (r.dropWhile (· != '\n'))
    else .sign c :: symbols r
termination_by t => t.length
decreasing_by
  · simp
  · exact Nat.lt_succ_of_le (List.dropWhile_sublist _).length_le
  · have whole := congrArg List.length (append_of_quotedTail? _h)
    simp only [List.length_append, List.length_cons] at whole ⊢
    omega
  · simp
  · have whole := congrArg List.length (blockTail_append r.tail)
    simp only [List.length_append, List.length_tail, List.length_cons] at whole ⊢
    omega
  · exact Nat.lt_succ_of_le (List.dropWhile_sublist _).length_le
  · simp

def typeText : Text := ['t', 'y', 'p', 'e']

def asText : Text := ['a', 's']

/-- A name that is imported, under which name, and whether only as a type. -/
structure Specifier where
  typeOnly : Bool
  imported : Text
  bound : Text
  deriving DecidableEq

/-- A specifier from its words. The number of words tells a modifier from a name, so `type as x`
imports a value named `type`. With `typeOnly` the whole statement imports types, and no specifier
says so again. -/
def Specifier.ofWords? (typeOnly : Bool) : List Text → Option Specifier
  | [name] => some ⟨typeOnly, name, name⟩
  | [modifier, name] =>
    if modifier = typeText ∧ typeOnly = false then some ⟨true, name, name⟩ else none
  | [name, link, bound] => if link = asText then some ⟨typeOnly, name, bound⟩ else none
  | [modifier, name, link, bound] =>
    if modifier = typeText ∧ link = asText ∧ typeOnly = false then some ⟨true, name, bound⟩ else none
  | _ => none

def Symbol.word? : Symbol → Option Text
  | .word t => some t
  | .sign _ | .literal _ => none

/-- What an import statement with a list of names imports. -/
structure NamedImport where
  /-- It is an `import type` statement. -/
  typeOnly : Bool
  specifiers : List Specifier
  /-- The module, in its quotes. -/
  source : Text
  deriving DecidableEq

namespace NamedImport

/-- The specifiers between the commas; a comma may stand behind the last one. -/
def specifiers? (typeOnly : Bool) (ss : List Symbol) : Option (List Specifier) :=
  let parts := ss.splitOn (.sign ',')
  (if parts.getLast? = some [] then parts.dropLast else parts).mapM fun part =>
    (part.mapM Symbol.word?).bind (Specifier.ofWords? typeOnly)

/-- What stands behind `s`. -/
def behind? (s : Symbol) : List Symbol → Option (List Symbol)
  | [] => none
  | x :: xs => if x = s then some xs else none

/-- The names between braces and the module behind `from`. -/
def body? (typeOnly : Bool) (ss : List Symbol) : Option NamedImport :=
  (specifiers? typeOnly (ss.takeWhile (· != .sign '\x7d'))).bind fun specifiers =>
    match ss.dropWhile (· != .sign '\x7d') with
    | [_, .word link, .literal source] =>
      if link = "from".toList then some ⟨typeOnly, specifiers, source⟩ else none
    | _ => none

def read? (t : Text) : Option NamedImport :=
  (behind? (.word "import".toList) (symbols t)).bind fun ss =>
    let typeOnly := ss.head? == some (.word typeText)
    (behind? (.sign '\x7b') (if typeOnly then ss.tail else ss)).bind (body? typeOnly)

end NamedImport

/-! ### Writing -/

/-- A run of blanks. -/
structure Blanks where
  first : Char
  more : Text
  blank : ∀ c ∈ first :: more, isBlank c = true

def Blanks.text (w : Blanks) : Text := w.first :: w.more

def Blanks.space : Blanks := ⟨' ', [], by decide⟩

/-- What may stand between words and signs. -/
inductive Filler
  | blanks (w : Blanks)
  | block (body : Text) (inside : ¬ ['*', '/'] <:+: body)
  /-- A comment up to the end of its line, with the line feed. -/
  | line (body : Text) (inside : '\n' ∉ body)

namespace Filler

def text : Filler → Text
  | blanks w => w.text
  | block body _ => '/' :: '*' :: (body ++ ['*', '/'])
  | line body _ => '/' :: '/' :: (body ++ ['\n'])

def isBlank : Filler → Bool
  | blanks _ => true
  | block .. | line .. => false

def isLine : Filler → Bool
  | line .. => true
  | blanks _ | block .. => false

def spell (fs : List Filler) : Text := fs.flatMap text

end Filler

structure Name where
  text : Text
  nonempty : text ≠ []
  letters : ∀ c ∈ text, isLetter c = true

namespace Name

def importName : Name := ⟨"import".toList, by decide, by decide⟩

def typeName : Name := ⟨typeText, by decide, by decide⟩

def asName : Name := ⟨asText, by decide, by decide⟩

def fromName : Name := ⟨"from".toList, by decide, by decide⟩

end Name

inductive Element
  | word (n : Name)
  | sign (c : Char) (known : c ∈ ['\x7b', '\x7d', ','])
  | literal (q : QuotedText)
  | filler (f : Filler)

namespace Element

def text : Element → Text
  | word n => n.text
  | sign c _ => [c]
  | literal q => q.text
  | filler f => f.text

def symbols : Element → List Symbol
  | word n => [.word n.text]
  | sign c _ => [.sign c]
  | literal q => [.literal q.text]
  | filler _ => []

def isWord : Element → Bool
  | word _ => true
  | sign .. | literal _ | filler _ => false

def comma : Element := .sign ',' (by decide)

def opening : Element := .sign '\x7b' (by decide)

def closing : Element := .sign '\x7d' (by decide)

def spell (es : List Element) : Text := es.flatMap text

/-- Optional blanks. -/
def gap (w : Option Blanks) : List Element := w.toList.map fun w => .filler (.blanks w)

/-- Two words do not touch. -/
def Apart (a b : Element) : Prop := a.isWord = true → b.isWord = false

@[simp] theorem spell_nil : spell [] = [] := rfl

@[simp] theorem spell_cons (e : Element) (es : List Element) : spell (e :: es) = e.text ++ spell es :=
  List.flatMap_cons

@[simp] theorem spell_append (es fs : List Element) : spell (es ++ fs) = spell es ++ spell fs :=
  List.flatMap_append

end Element

/-- A second name for what is imported, with the blanks around `as`. -/
structure Alias where
  before : Blanks
  behind : Blanks
  name : Name

/-- A specifier as it is written, with what stands around it. -/
structure WrittenSpecifier where
  lead : List Filler
  /-- The word `type`, by the blanks behind it. -/
  modifier : Option Blanks
  name : Name
  renamed : Option Alias
  behind : List Filler

namespace WrittenSpecifier

def specifier (s : WrittenSpecifier) : Specifier :=
  ⟨s.modifier.isSome, s.name.text, (s.renamed.elim s.name Alias.name).text⟩

/-- The name and its alias. -/
def named (s : WrittenSpecifier) : List Element :=
  .word s.name :: s.renamed.elim [] fun a =>
    [.filler (.blanks a.before), .word .asName, .filler (.blanks a.behind), .word a.name]

def modified (s : WrittenSpecifier) : List Element :=
  s.modifier.elim [] fun w => [.word .typeName, .filler (.blanks w)]

def elements (s : WrittenSpecifier) : List Element :=
  s.lead.map .filler ++ (s.modified ++ s.named ++ s.behind.map .filler)

end WrittenSpecifier

/-- What stands behind the last comma. -/
inductive LastPart
  | specifier (s : WrittenSpecifier)
  | fillers (fs : List Filler)

namespace LastPart

def elements : LastPart → List Element
  | specifier s => s.elements
  | fillers fs => fs.map .filler

def specifiers : LastPart → List WrittenSpecifier
  | specifier s => [s]
  | fillers _ => []

/-- What stands behind a comma that no specifier follows, or in empty braces. -/
def trailing : LastPart → List Filler
  | specifier _ => []
  | fillers fs => fs

end LastPart

/-- An import statement as it is written. -/
structure ImportText where
  before : Option Blanks
  /-- Behind `import`. -/
  gap : Option Blanks
  /-- The specifiers that a comma follows. -/
  ended : List WrittenSpecifier
  last : LastPart
  /-- Behind the closing brace. -/
  closedGap : Option Blanks
  /-- Behind `from`. -/
  fromGap : Option Blanks
  source : QuotedText
  behind : Option Blanks

namespace ImportText

def specifiers (w : ImportText) : List WrittenSpecifier := w.ended ++ w.last.specifiers

def parts (w : ImportText) : List (List Element) :=
  w.ended.map WrittenSpecifier.elements ++ [w.last.elements]

/-- What stands between the braces. -/
def names (w : ImportText) : List Element := [Element.comma].intercalate w.parts

/-- What stands behind the closing brace. -/
def origin (w : ImportText) : List Element :=
  Element.gap w.closedGap ++ .word .fromName :: (Element.gap w.fromGap ++ [.literal w.source])

def statement (w : ImportText) : List Element :=
  .word .importName :: (Element.gap w.gap ++ .opening :: (w.names ++ .closing :: w.origin))

def text (w : ImportText) : Text :=
  Element.spell (Element.gap w.before ++ w.statement ++ Element.gap w.behind)

/-- What the statement imports. -/
def imports (w : ImportText) : List Specifier := w.specifiers.map WrittenSpecifier.specifier

end ImportText

/-! ### Symbols of what is written -/

section
variable {c : Char} {r rest : Text}

theorem symbols_blank (blank : isBlank c = true) (r : Text) : symbols (c :: r) = symbols r := by
  rw [symbols, if_pos blank]

theorem symbols_blanks {t : Text} (blank : ∀ c ∈ t, isBlank c = true) (r : Text) :
    symbols (t ++ r) = symbols r := by
  induction t with
  | nil => rfl
  | cons c t ih =>
    rw [List.cons_append, symbols_blank (blank c List.mem_cons_self),
      ih fun d member => blank d (.tail c member)]

theorem symbols_word (n : Name) (stop : ∀ c ∈ rest.head?, isLetter c = false) :
    symbols (n.text ++ rest) = .word n.text :: symbols rest := by
  obtain ⟨c, more, spelled⟩ := List.exists_cons_of_ne_nil n.nonempty
  have letters := n.letters
  rw [spelled] at letters ⊢
  have first := letters c List.mem_cons_self
  simp only [isLetter, Bool.and_eq_true, Bool.not_eq_true'] at first
  obtain ⟨taken, left⟩ := span_of_stop (fun d member => letters d (.tail c member)) stop
  rw [List.cons_append, symbols, if_neg (by simp [first.2]), if_pos first.1, taken, left]

theorem symbols_block {body : Text} (inside : ¬ ['*', '/'] <:+: body) (rest : Text) :
    symbols ('/' :: '*' :: (body ++ ['*', '/']) ++ rest) = symbols rest := by
  have tail : blockTail (body ++ '*' :: '/' :: rest) = (body ++ ['*', '/'], rest) :=
    blockTail_append_close inside rest
  rw [List.cons_append, symbols, if_neg (by decide), if_neg (by decide), if_neg (by decide),
    if_pos ⟨rfl, rfl⟩]
  simp [tail]

theorem symbols_line {body : Text} (inside : '\n' ∉ body) (rest : Text) :
    symbols ('/' :: '/' :: (body ++ ['\n']) ++ rest) = symbols rest := by
  have free : ∀ c ∈ '/' :: body, (c != '\n') = true := by
    intro c member
    rcases List.mem_cons.1 member with rfl | member
    · decide
    · exact bne_iff_ne.2 fun feed => inside (feed ▸ member)
  have left : ('/' :: body ++ '\n' :: rest).dropWhile (· != '\n') = '\n' :: rest :=
    (span_of_stop free (by simp)).2
  rw [List.cons_append, symbols, if_neg (by decide), if_neg (by decide), if_neg (by decide),
    if_neg (by simp), if_pos ⟨rfl, rfl⟩,
    show '/' :: (body ++ ['\n']) ++ rest = '/' :: body ++ '\n' :: rest by simp, left,
    symbols_blank (by decide)]

theorem symbols_literal (q : QuotedText) (rest : Text) :
    symbols (q.text ++ rest) = .literal q.text :: symbols rest := by
  have whole : q.text ++ rest = q.mark :: (q.body ++ q.mark :: rest) := by simp [QuotedText.text]
  have mark : isBlank q.mark = false ∧ isDull q.mark = false ∧ q.mark ≠ '\\' := by
    rcases q.quote with mark | mark <;> rw [mark] <;> decide
  have read := quotedTail?_of_body mark.2.2 q.inside rest
  rw [whole, symbols, if_neg (by simp [mark.1]), if_neg (by simp [mark.2.1]), if_pos q.quote]
  split
  · next body rest' found =>
    rw [read] at found
    cases found
    rfl
  · next found => simp [read] at found

theorem symbols_sign (known : c ∈ ['\x7b', '\x7d', ',']) (rest : Text) :
    symbols (c :: rest) = .sign c :: symbols rest := by
  have plain : ∀ d ∈ ['\x7b', '\x7d', ','], isBlank d = false ∧ isDull d = false ∧
      ¬ (d = '"' ∨ d = '\'') ∧ d ≠ '/' := by decide
  obtain ⟨solid, marked, quote, slash⟩ := plain c known
  rw [symbols, if_neg (by simp [solid]), if_neg (by simp [marked]), if_neg quote,
    if_neg (by simp [slash]), if_neg (by simp [slash])]

end

namespace Element

theorem symbols_append (e : Element) {rest : Text}
    (stop : e.isWord = true → ∀ c ∈ rest.head?, isLetter c = false) :
    Ambient.symbols (e.text ++ rest) = e.symbols ++ Ambient.symbols rest := by
  cases e with
  | word n => exact symbols_word n (stop rfl)
  | sign c known => exact symbols_sign known rest
  | literal q => exact symbols_literal q rest
  | filler f =>
    cases f with
    | blanks w => exact symbols_blanks w.blank rest
    | block body inside => exact symbols_block inside rest
    | line body inside => exact symbols_line inside rest

theorem head_of_not_word {e : Element} (h : e.isWord = false) :
    ∃ c r, e.text = c :: r ∧ isLetter c = false := by
  cases e with
  | word n => cases h
  | sign c known =>
    have plain : ∀ d ∈ ['\x7b', '\x7d', ','], isLetter d = false := by decide
    exact ⟨c, [], rfl, plain c known⟩
  | literal q =>
    refine ⟨q.mark, q.body ++ [q.mark], rfl, ?_⟩
    rcases q.quote with mark | mark <;> rw [mark] <;> decide
  | filler f =>
    cases f with
    | blanks w =>
      exact ⟨w.first, w.more, rfl, by simp [isLetter, w.blank w.first List.mem_cons_self]⟩
    | block body inside => exact ⟨'/', _, rfl, by decide⟩
    | line body inside => exact ⟨'/', _, rfl, by decide⟩

theorem stop_spell {es : List Element} (h : ∀ e ∈ es.head?, e.isWord = false) :
    ∀ c ∈ (spell es).head?, isLetter c = false := by
  intro c head
  cases es with
  | nil => cases head
  | cons e es =>
    obtain ⟨d, r, spelled, other⟩ := head_of_not_word (h e rfl)
    rw [spell_cons, spelled] at head
    exact Option.some.inj head ▸ other

/-- **Elements are read one by one**, as long as something stands between two words. -/
theorem symbols_spell {es : List Element} (h : es.IsChain Apart) :
    Ambient.symbols (spell es) = es.flatMap symbols := by
  induction es with
  | nil => simp [Ambient.symbols]
  | cons e es ih =>
    obtain ⟨apart, later⟩ := List.isChain_cons.1 h
    rw [spell_cons, e.symbols_append fun word => stop_spell fun f head => apart f head word,
      ih later, List.flatMap_cons]

/-! #### Words apart -/

section
variable {es fs : List Element}

theorem isChain_around {e : Element} (sign : e.isWord = false) :
    (es ++ e :: fs).IsChain Apart ↔ es.IsChain Apart ∧ fs.IsChain Apart := by
  rw [List.isChain_append, List.isChain_cons]
  constructor
  · exact fun h => ⟨h.1, h.2.1.2⟩
  · refine fun h => ⟨h.1, ⟨fun f _ word => ?_, h.2⟩, fun a _ b head _ => ?_⟩
    · simp [sign] at word
    · exact Option.some.inj head ▸ sign

theorem isChain_signs_append {signs : List Element} (h : ∀ e ∈ signs, e.isWord = false) :
    (signs ++ es).IsChain Apart ↔ es.IsChain Apart := by
  induction signs with
  | nil => rfl
  | cons e signs ih =>
    have free : ∀ f ∈ (signs ++ es).head?, Apart e f := fun f _ word => by
      simp [h e List.mem_cons_self] at word
    rw [List.cons_append, List.isChain_cons, ih fun f member => h f (.tail e member)]
    exact ⟨And.right, fun chain => ⟨free, chain⟩⟩

theorem isChain_append_signs {signs : List Element} (h : ∀ e ∈ signs, e.isWord = false) :
    (es ++ signs).IsChain Apart ↔ es.IsChain Apart := by
  cases signs with
  | nil => rw [List.append_nil]
  | cons e signs =>
    have rest : (signs ++ []).IsChain Apart :=
      (isChain_signs_append fun f member => h f (.tail e member)).2 .nil
    rw [List.append_nil] at rest
    rw [isChain_around (h e List.mem_cons_self)]
    exact ⟨And.left, fun chain => ⟨chain, rest⟩⟩

theorem signs_fillers (gs : List Filler) : ∀ e ∈ gs.map filler, e.isWord = false := by
  intro e member
  obtain ⟨g, -, rfl⟩ := List.mem_map.1 member
  rfl

theorem signs_gap (w : Option Blanks) : ∀ e ∈ gap w, e.isWord = false := by
  intro e member
  obtain ⟨b, -, rfl⟩ := List.mem_map.1 member
  rfl

theorem intercalate_cons_cons {α : Type} (mark p q : List α) (ps : List (List α)) :
    mark.intercalate (p :: q :: ps) = p ++ (mark ++ mark.intercalate (q :: ps)) := by
  simp [List.intercalate]

theorem isChain_intercalate {mark : List Element} (signs : ∀ e ∈ mark, e.isWord = false)
    (nonempty : mark ≠ []) {parts : List (List Element)} (h : ∀ p ∈ parts, p.IsChain Apart) :
    (mark.intercalate parts).IsChain Apart := by
  obtain ⟨m, ms, rfl⟩ := List.exists_cons_of_ne_nil nonempty
  induction parts with
  | nil => exact .nil
  | cons p parts ih =>
    cases parts with
    | nil => simpa [List.intercalate] using h p List.mem_cons_self
    | cons q parts =>
      rw [intercalate_cons_cons, List.cons_append, isChain_around (signs m List.mem_cons_self),
        isChain_signs_append fun e member => signs e (.tail m member)]
      exact ⟨h p List.mem_cons_self, ih fun r member => h r (.tail p member)⟩

theorem flatMap_intercalate {α β : Type} (f : α → List β) (mark : List α) (parts : List (List α)) :
    (mark.intercalate parts).flatMap f = (mark.flatMap f).intercalate (parts.map (·.flatMap f)) := by
  induction parts with
  | nil => rfl
  | cons p parts ih =>
    cases parts with
    | nil => simp [List.intercalate]
    | cons q parts =>
      rw [intercalate_cons_cons, List.flatMap_append, List.flatMap_append, ih]
      exact (intercalate_cons_cons _ _ _ _).symm

end

end Element

/-! ### What is read -/

theorem mapM_map_some {α β γ : Type} {f : α → β} {g : β → Option γ} {h : α → γ} {xs : List α}
    (each : ∀ x ∈ xs, g (f x) = some (h x)) : (xs.map f).mapM g = some (xs.map h) := by
  induction xs with
  | nil => rfl
  | cons x xs ih =>
    rw [List.map_cons, List.mapM_cons, each x List.mem_cons_self,
      ih fun y member => each y (.tail x member)]
    rfl

theorem exists_of_mapM {α β : Type} {f : α → Option β} {xs : List α} {ys : List β}
    (h : xs.mapM f = some ys) : ∀ x ∈ xs, ∃ y, f x = some y := by
  induction xs generalizing ys with
  | nil => exact nofun
  | cons x xs ih =>
    rw [List.mapM_cons] at h
    obtain ⟨y, first, rest⟩ := Option.bind_eq_some_iff.1 h
    obtain ⟨zs, later, -⟩ := Option.bind_eq_some_iff.1 rest
    intro z member
    rcases List.mem_cons.1 member with rfl | member
    · exact ⟨y, first⟩
    · exact ih later z member

namespace NamedImport

section
variable {α : Type} {typeOnly : Bool} {xs : List α} {words : α → List Text}
  {meaning : α → Specifier}

/-- The symbols of specifiers with commas between them, and behind the last one if it is
`trailing`. -/
def listed (trailing : Bool) (words : α → List Text) (xs : List α) : List Symbol :=
  [.sign ','].intercalate
    ((xs.map fun x => (words x).map .word) ++ if trailing then [[]] else [])

theorem specifiers?_listed {trailing : Bool} (some_part : xs = [] → trailing = true)
    (nonempty : ∀ x ∈ xs, words x ≠ [])
    (each : ∀ x ∈ xs, Specifier.ofWords? typeOnly (words x) = some (meaning x)) :
    specifiers? typeOnly (listed trailing words xs) = some (xs.map meaning) := by
  have free : ∀ part ∈ (xs.map fun x => (words x).map Symbol.word) ++ if trailing then [[]] else [],
      Symbol.sign ',' ∉ part := by
    intro part member
    rcases List.mem_append.1 member with member | member
    · obtain ⟨x, -, rfl⟩ := List.mem_map.1 member
      simp
    · split at member
      · simp [List.mem_singleton.1 member]
      · cases member
  have some_parts : (xs.map fun x => (words x).map Symbol.word) ++
      (if trailing then [[]] else []) ≠ [] := by
    cases xs with
    | nil => simp [some_part rfl]
    | cons x xs => simp
  have kept : (let parts := (xs.map fun x => (words x).map Symbol.word) ++
        if trailing then [[]] else []
      if parts.getLast? = some [] then parts.dropLast else parts) =
        xs.map fun x => (words x).map .word := by
    cases trailing with
    | true => simp
    | false =>
      rcases List.eq_nil_or_concat xs with rfl | ⟨front, last, rfl⟩
      · cases some_part rfl
      · simp [nonempty last]
  have read : ∀ x ∈ xs, (((words x).map Symbol.word).mapM Symbol.word?).bind
      (Specifier.ofWords? typeOnly) = some (meaning x) := by
    intro x member
    have texts : ((words x).map Symbol.word).mapM Symbol.word? = some ((words x).map id) :=
      mapM_map_some fun t _ => rfl
    rw [texts, List.map_id, Option.bind_some, each x member]
  rw [specifiers?, listed, List.splitOn_intercalate (.sign ',') free some_parts]
  exact (congrArg _ kept).trans (mapM_map_some read)

/-- **The symbols of a statement tell what it imports.** -/
theorem read?_of_symbols (trailing : Bool) (words : α → List Text) (xs : List α) {t source : Text}
    (some_part : xs = [] → trailing = true)
    (nonempty : ∀ x ∈ xs, words x ≠ [])
    (each : ∀ x ∈ xs, Specifier.ofWords? typeOnly (words x) = some (meaning x))
    (spelled : symbols t = .word "import".toList :: ((if typeOnly then [.word typeText] else []) ++
      .sign '\x7b' :: (listed trailing words xs ++
        [.sign '\x7d', .word "from".toList, .literal source]))) :
    read? t = some ⟨typeOnly, xs.map meaning, source⟩ := by
  have inside : ∀ s ∈ listed trailing words xs, (s != .sign '\x7d') = true := by
    intro s member
    rcases mem_intercalate member with comma | ⟨part, parts, inPart⟩
    · rw [List.mem_singleton.1 comma]
      decide
    · rcases List.mem_append.1 parts with word | empty
      · obtain ⟨x, -, rfl⟩ := List.mem_map.1 word
        obtain ⟨t, -, rfl⟩ := List.mem_map.1 inPart
        rfl
      · split at empty
        · rw [List.mem_singleton.1 empty] at inPart
          cases inPart
        · cases empty
  have stop : ∀ s ∈ [Symbol.sign '\x7d', .word "from".toList, .literal source].head?,
      (s != .sign '\x7d') = false := by
    intro s head
    rw [← Option.some.inj head]
    decide
  obtain ⟨taken, left⟩ := span_of_stop inside stop
  have body : body? typeOnly (listed trailing words xs ++
      [.sign '\x7d', .word "from".toList, .literal source]) =
        some ⟨typeOnly, xs.map meaning, source⟩ := by
    rw [body?, taken, left, specifiers?_listed some_part nonempty each]
    rfl
  rw [read?, spelled]
  cases typeOnly with
  | true => exact body
  | false => exact body

end

end NamedImport

namespace Element

theorem symbols_fillers (gs : List Filler) : (gs.map filler).flatMap symbols = [] := by
  induction gs with
  | nil => rfl
  | cons g gs ih => exact ih

theorem symbols_gap (w : Option Blanks) : (gap w).flatMap symbols = [] := by
  cases w <;> rfl

end Element

namespace WrittenSpecifier

/-- The words of the name and its alias. -/
def namedWords (s : WrittenSpecifier) : List Text :=
  s.name.text :: s.renamed.elim [] fun a => [asText, a.name.text]

def words (s : WrittenSpecifier) : List Text :=
  (if s.modifier.isSome then [typeText] else []) ++ s.namedWords

variable (s : WrittenSpecifier)

theorem named_facts : s.named.IsChain Element.Apart ∧
    s.named.flatMap Element.symbols = s.namedWords.map .word := by
  obtain ⟨lead, modifier, name, renamed, behind⟩ := s
  cases renamed with
  | none => exact ⟨.singleton _, rfl⟩
  | some a => exact ⟨by simp [named, Element.Apart, Element.isWord], rfl⟩

theorem elements_facts : s.elements.IsChain Element.Apart ∧
    s.elements.flatMap Element.symbols = s.words.map .word := by
  obtain ⟨chain, named⟩ := s.named_facts
  have modified : (s.modified ++ s.named).IsChain Element.Apart ∧
      s.modified.flatMap Element.symbols =
        (if s.modifier.isSome then [typeText] else []).map .word := by
    cases found : s.modifier with
    | none => exact ⟨by simpa [WrittenSpecifier.modified, found] using chain,
        by simp [WrittenSpecifier.modified, found]⟩
    | some w =>
      refine ⟨?_, by simp [WrittenSpecifier.modified, found, Element.symbols, Name.typeName]⟩
      have apart : ([Element.word .typeName] ++ .filler (.blanks w) :: s.named).IsChain
          Element.Apart := (Element.isChain_around rfl).2 ⟨.singleton _, chain⟩
      simpa [WrittenSpecifier.modified, found] using apart
  constructor
  · rw [elements, Element.isChain_signs_append (Element.signs_fillers _),
      Element.isChain_append_signs (Element.signs_fillers _)]
    exact modified.1
  · rw [elements, List.flatMap_append, List.flatMap_append, List.flatMap_append,
      Element.symbols_fillers, Element.symbols_fillers, modified.2, named, words, List.map_append]
    simp

theorem ofWords?_words : Specifier.ofWords? false s.words = some s.specifier := by
  obtain ⟨lead, modifier, name, renamed, behind⟩ := s
  cases modifier <;> cases renamed <;>
    simp [words, namedWords, specifier, Specifier.ofWords?]

/-- In a statement that imports types only, the name and the alias are enough. -/
theorem ofWords?_namedWords (typed : s.modifier.isSome = true) :
    Specifier.ofWords? true s.namedWords = some s.specifier := by
  obtain ⟨lead, modifier, name, renamed, behind⟩ := s
  have modified : modifier.isSome = true := typed
  cases renamed <;> simp [namedWords, specifier, Specifier.ofWords?, modified]

end WrittenSpecifier

namespace ImportText

variable (w : ImportText)

/-- No specifier stands behind the last comma. -/
def isTrailing : Bool := w.last.specifiers.isEmpty

theorem names_facts : w.names.IsChain Element.Apart ∧ w.names.flatMap Element.symbols =
    NamedImport.listed w.isTrailing WrittenSpecifier.words w.specifiers := by
  have last : w.last.elements.IsChain Element.Apart ∧
      [w.last.elements.flatMap Element.symbols] =
        (w.last.specifiers.map fun s => s.words.map .word) ++
          if w.isTrailing then [[]] else [] := by
    rw [isTrailing]
    cases w.last with
    | specifier s =>
      obtain ⟨chain, symbols⟩ := s.elements_facts
      exact ⟨chain, by simp [LastPart.elements, LastPart.specifiers, symbols]⟩
    | fillers fs =>
      have chain : (fs.map Element.filler ++ []).IsChain Element.Apart :=
        (Element.isChain_signs_append (Element.signs_fillers fs)).2 .nil
      rw [List.append_nil] at chain
      exact ⟨chain, by simp [LastPart.elements, LastPart.specifiers, Element.symbols_fillers]⟩
  constructor
  · refine Element.isChain_intercalate (by simp [Element.comma, Element.isWord]) (by simp) ?_
    intro part member
    rcases List.mem_append.1 member with member | member
    · obtain ⟨s, -, rfl⟩ := List.mem_map.1 member
      exact s.elements_facts.1
    · exact List.mem_singleton.1 member ▸ last.1
  · have ended : w.ended.map (fun s => s.elements.flatMap Element.symbols) =
        w.ended.map fun s => s.words.map .word :=
      List.map_congr_left fun s _ => s.elements_facts.2
    rw [names, Element.flatMap_intercalate, NamedImport.listed, specifiers, List.map_append,
      List.append_assoc, ← last.2, parts, List.map_append, List.map_map]
    exact congrArg (fun parts => [Symbol.sign ','].intercalate (parts ++ _)) ended

theorem origin_facts : w.origin.IsChain Element.Apart ∧
    w.origin.flatMap Element.symbols = [.word "from".toList, .literal w.source.text] := by
  constructor
  · rw [origin, Element.isChain_signs_append (Element.signs_gap _),
      show Element.word .fromName :: (Element.gap w.fromGap ++ [.literal w.source]) =
        [.word .fromName] ++ (Element.gap w.fromGap ++ [.literal w.source]) from rfl,
      Element.isChain_append_signs]
    · exact .singleton _
    · intro e member
      rcases List.mem_append.1 member with member | member
      · exact Element.signs_gap _ e member
      · exact List.mem_singleton.1 member ▸ rfl
  · rw [origin, List.flatMap_append, List.flatMap_cons, List.flatMap_append, Element.symbols_gap,
      Element.symbols_gap]
    rfl

/-- The words of a statement stand apart, and its symbols say what it imports. -/
theorem statement_facts : w.statement.IsChain Element.Apart ∧
    w.statement.flatMap Element.symbols = .word "import".toList :: .sign '\x7b' ::
      (NamedImport.listed w.isTrailing WrittenSpecifier.words w.specifiers ++
        [.sign '\x7d', .word "from".toList, .literal w.source.text]) := by
  obtain ⟨namesApart, names⟩ := w.names_facts
  obtain ⟨originApart, origin⟩ := w.origin_facts
  constructor
  · have opening : ([Element.word .importName] ++ Element.gap w.gap).IsChain Element.Apart :=
      (Element.isChain_append_signs (Element.signs_gap _)).2 (.singleton _)
    have behind := (Element.isChain_around (e := .opening) rfl).2
      ⟨opening, (Element.isChain_around (e := .closing) rfl).2 ⟨namesApart, originApart⟩⟩
    simpa [statement] using behind
  · rw [statement, List.flatMap_cons, List.flatMap_append, List.flatMap_cons, List.flatMap_append,
      List.flatMap_cons, Element.symbols_gap, names, origin]
    rfl

theorem read?_of_facts {es : List Element} (apart : es.IsChain Element.Apart)
    (shown : es.flatMap Element.symbols = w.statement.flatMap Element.symbols) :
    NamedImport.read? (Element.spell es) = some ⟨false, w.imports, w.source.text⟩ := by
  refine NamedImport.read?_of_symbols w.isTrailing WrittenSpecifier.words w.specifiers ?_ ?_
    (fun s _ => s.ofWords?_words) ?_
  · intro none
    rw [isTrailing, (List.append_eq_nil_iff.1 none).2]
    rfl
  · exact fun s _ => by simp [WrittenSpecifier.words, WrittenSpecifier.namedWords]
  · rw [Element.symbols_spell apart, shown, w.statement_facts.2]
    rfl

theorem read?_statement : NamedImport.read? (Element.spell w.statement) =
    some ⟨false, w.imports, w.source.text⟩ := w.read?_of_facts w.statement_facts.1 rfl

/-- **A statement is read as what it says**, whatever blanks and comments it holds. -/
theorem read?_text : NamedImport.read? w.text = some ⟨false, w.imports, w.source.text⟩ := by
  refine w.read?_of_facts ((Element.isChain_append_signs (Element.signs_gap _)).2
    ((Element.isChain_signs_append (Element.signs_gap _)).2 w.statement_facts.1)) ?_
  rw [List.flatMap_append, List.flatMap_append, Element.symbols_gap, Element.symbols_gap,
    List.nil_append, List.append_nil]

end ImportText

end Ambient
