import Ambient.Declaration.Form
import Ambient.Proofs.Members
import Ambient.Proofs.Splitting

/-!
Brackets of declarations in ambient form. An alias, a default export and a verbatim export keep
their balance whatever their text is, a function has the balance of its header, and a constant
without an object literal that of its annotation. Bodies are cut at lines and at the outermost
braces, so they keep both sides of every pair in the layouts that `Laid` lists; an annotation over
several lines is none of them.
-/

namespace Ambient

open Lexer

/-! ### Words in front, and the end of the text -/

theorem bracketBalance_trimRightBy {p : Char → Bool}
    (neutral : ∀ c, p c = true → isNeutral c = true) (t : Text) :
    bracketBalance (trimRightBy p t) = bracketBalance t := by
  obtain ⟨w, taken, split⟩ := exists_trimRightBy_append p t
  conv => rhs; rw [split]
  exact (bracketBalance_append_neutral (fun c member => neutral c (taken c member)) _).symm

/-- Semicolons at the end do not change the balance. -/
theorem bracketBalance_trimSemicolons (t : Text) :
    bracketBalance (trimRightBy (· == ';') t) = bracketBalance t := by
  refine bracketBalance_trimRightBy (fun c sign => ?_) t
  obtain rfl : c = ';' := by simpa using sign
  decide

theorem bracketBalance_ended (t : Text) : bracketBalance (t ++ [';']) = bracketBalance t :=
  bracketBalance_append_neutral (by decide) t

theorem bracketBalance_afterExport? {t r : Text} (h : afterExport? t = some r) :
    bracketBalance t = bracketBalance r := by
  have plain : Word.exportWord.text ∉ operandWords := by decide
  exact bracketBalance_of_afterSpaced? plain h

theorem bracketBalance_afterDeclare? {t r : Text} (h : afterDeclare? t = some r) :
    bracketBalance t = bracketBalance r := by
  have plain : Word.declareWord.text ∉ operandWords := by decide
  obtain ⟨u, exported, rfl⟩ := Option.map_eq_some_iff.1 h
  rw [bracketBalance_afterExport? exported]
  exact (bracketBalance_skipSpaced plain u).symm

/-- The words that open every rewritten declaration. -/
theorem bracketBalance_declared (r : Text) :
    bracketBalance ("export declare ".toList ++ r) = bracketBalance r := by
  have exported : Word.exportWord.text ∉ operandWords := by decide
  have declared : Word.declareWord.text ∉ operandWords := by decide
  exact (bracketBalance_spaced exported _).trans (bracketBalance_spaced declared r)

/-! ### Aliases, defaults and functions -/

theorem bracketBalance_ambientAlias (t : Text) :
    bracketBalance (ambientAlias t) = bracketBalance t := by
  simp only [ambientAlias]
  cases found : (afterExport? (trim t)).bind (after? "type".toList) with
  | none => exact bracketBalance_trim t
  | some r =>
    obtain ⟨u, exported, typed⟩ := Option.bind_eq_some_iff.1 found
    simp only
    split
    · have spelled : "export declare type".toList ++ r =
          "export declare ".toList ++ ("type".toList ++ r) := by simp
      rw [← bracketBalance_trim t, bracketBalance_afterExport? exported, after?_eq_some_iff.1 typed,
        spelled]
      exact bracketBalance_declared _
    · exact bracketBalance_trim t

theorem bracketBalance_ambientDefault (t : Text) :
    bracketBalance (ambientDefault t) = bracketBalance t := by
  rw [ambientDefault, bracketBalance_ended, bracketBalance_trimRight, bracketBalance_trimSemicolons,
    bracketBalance_trim]

namespace Function

/-- The text before the body. -/
def upToBody (t : Text) : Text := t.take ((Nesting.bodyBrace? t).getD t.length)

theorem bracketBalance_signature (t : Text) :
    bracketBalance (signature t) = bracketBalance (upToBody t) := by
  rw [signature, bracketBalance_trimRight, bracketBalance_trimSemicolons, bracketBalance_trim,
    upToBody]

theorem bracketBalance_withoutModifiers (t : Text) :
    bracketBalance (withoutModifiers t) = bracketBalance t := by
  have plain : Word.asyncWord.text ∉ operandWords := by decide
  unfold withoutModifiers
  cases found : afterDeclare? t with
  | none => rfl
  | some r =>
    rw [bracketBalance_afterDeclare? found]
    exact bracketBalance_skipSpaced plain r

theorem bracketBalance_withoutStar (t : Text) :
    bracketBalance (withoutStar t) = bracketBalance t := by
  have plain : Word.functionWord.text ∉ operandWords := by decide
  unfold withoutStar
  cases found : (after? "function".toList t).bind fun r => after? ['*'] (trimLeft r) with
  | none => rfl
  | some r =>
    obtain ⟨u, word, star⟩ := Option.bind_eq_some_iff.1 found
    have starred : trimLeft u = '*' :: r := after?_eq_some_iff.1 star
    have stop : ∀ c ∈ u.head?, isNameChar c = false := by
      intro c first
      by_cases blank : isBlank c = true
      · exact isNameChar_of_isBlank blank
      · rw [trimLeft_of_head first (by simpa using blank)] at starred
        rw [starred] at first
        obtain rfl : '*' = c := Option.some.inj first
        decide
    calc bracketBalance ("function ".toList ++ trimLeft r)
        = bracketBalance r :=
          (bracketBalance_spaced plain (trimLeft r)).trans (bracketBalance_trimLeft r)
      _ = bracketBalance u := by rw [← bracketBalance_star, ← starred, bracketBalance_trimLeft]
      _ = bracketBalance t := by
          rw [after?_eq_some_iff.1 word]
          exact (bracketBalance_word stop (.inl plain)).symm

/-- **A function in ambient form has the balance of its header.** -/
theorem bracketBalance_ambient (t : Text) :
    bracketBalance (ambient t) = bracketBalance (upToBody (trim t)) := by
  let signed := signature (trim t)
  calc bracketBalance (ambient t)
      = bracketBalance ("export declare ".toList ++ withoutStar (withoutModifiers signed)) :=
        bracketBalance_ended _
    _ = bracketBalance (withoutStar (withoutModifiers signed)) := bracketBalance_declared _
    _ = bracketBalance (withoutModifiers signed) := bracketBalance_withoutStar _
    _ = bracketBalance signed := bracketBalance_withoutModifiers _
    _ = bracketBalance (upToBody (trim t)) := bracketBalance_signature _

end Function

/-! ### Bodies -/

theorem mem_of_mem_indentation {unit : Text} {level : Int} {c : Char}
    (h : c ∈ indentation unit level) : c ∈ unit := by
  obtain ⟨u, copy, inside⟩ := List.mem_flatten.1 h
  exact List.eq_of_mem_replicate copy ▸ inside

theorem closed_indentation {unit : Text} (spaces : ∀ c ∈ unit, isSpace c = true) (level : Int)
    {l : Text} (h : Closed l) : Closed (indentation unit level ++ l) ∧
      bracketBalance (indentation unit level ++ l) = bracketBalance l := by
  refine closed_prepend (fun c member => ?_) h
  have space := spaces c (mem_of_mem_indentation member)
  refine ⟨isBare_of_isDull (isDull_of_isSpace c space), ?_⟩
  rintro rfl
  simp [isSpace] at space

/-- Bare text in front does not change the balance of a written text. -/
theorem written_behind_bare {w t : Text} (bare : ∀ c ∈ w, isBare c = true) (h : Written t) :
    Written (w ++ t) ∧ bracketBalance (w ++ t) = bracketBalance t := by
  have front : Written w := .of_bare bare
  refine ⟨front.append h, ?_⟩
  rw [front.bracketBalance_append h, bracketBalance_of_bare bare, Int.zero_add]

/-- A body between braces adds the balances of its lines to the balance of what stands before. -/
theorem bracketBalance_braced {front : Text} (written : Written front) {body : List Text}
    (closed : ∀ l ∈ body, Closed l) :
    bracketBalance (front ++ " \x7b\n".toList ++ joinLines body ++ "\n\x7d".toList) =
      bracketBalance front + (body.map bracketBalance).sum := by
  have opening : Written " \x7b\n".toList :=
    .append (.of_bare (t := [' ']) (by decide)) (.append (.of_bracket (c := '{') (by decide))
      (.of_bare (t := ['\n']) (by decide)))
  have closing : Written ['}'] := .of_bracket (by decide)
  obtain ⟨lines, sum⟩ := written_joinLines closed
  have split : front ++ " \x7b\n".toList ++ joinLines body ++ "\n\x7d".toList =
      front ++ " \x7b\n".toList ++ ((joinLines body ++ ['\n']) ++ ['}']) := by simp
  rw [split, (written.append opening).bracketBalance_append (lines.append closing),
    written.bracketBalance_append opening, lines.bracketBalance_append closing, bracketBalance_feed,
    sum]
  have braces : bracketBalance " \x7b\n".toList = 1 ∧ bracketBalance ['}'] = -1 := by decide +kernel
  omega

/-- A text of one line whose parts between separators may stand on lines of their own. -/
structure Inline (angles : Bool) (sep : Char) (t : Text) : Prop where
  free : '\n' ∉ t
  written : Written t
  /-- A regular expression is not read as one at the head of a line. -/
  quiet : ∀ m ∈ Nesting.split angles [sep] t, regex? m = none

/-- The lines of a declaration that ends with a brace on its last line. Every line ends the literals
and comments that start on it. -/
structure Block (t first : Text) (inner : List Text) (last : Text) : Prop where
  spelled : lines (trim t) = first :: (inner ++ [last])
  closed : ∀ l ∈ first :: (inner ++ [last]), Closed l
  brace : startsWith ['}'] (trim last) = true
  closes : bracketBalance last = -1

namespace Block

variable {t first last : Text} {inner : List Text}

theorem balance (h : Block t first inner last) :
    bracketBalance t = bracketBalance first + (inner.map bracketBalance).sum - 1 := by
  have sum := (written_joinLines h.closed).2
  have whole : joinLines (first :: (inner ++ [last])) = trim t := by
    rw [← h.spelled]
    exact joinPieces_pieces '\n' (trim t)
  rw [whole, bracketBalance_trim] at sum
  simp only [List.map_cons, List.map_append, List.map_nil, List.sum_cons, List.sum_append,
    List.sum_nil, h.closes] at sum
  omega

theorem closed_inner (h : Block t first inner last) : ∀ l ∈ inner, Closed l := fun l member =>
  h.closed l (List.mem_cons_of_mem first (List.mem_append_left _ member))

theorem interior_lines (h : Block t first inner last) : interior (lines (trim t)) = inner := by
  rw [h.spelled]
  simp [interior, h.brace]

theorem interior_trimmed (h : Block t first inner last) :
    interior ((lines (trim t)).map trim) = inner.map trim := by
  rw [h.spelled]
  simp [interior, trim_trim, h.brace]

end Block

/-! ### Constants -/

namespace Constant

/-- The opening line from the name on. -/
def header (t : Text) : Text :=
  let first := ((lines (trim t)).map trim).headD []
  ((afterExport? first).bind (afterSpaced? "const".toList)).getD first

/-- The type of a constant whose value is an object literal with the given members. -/
def literalType (o : Opening) (body : List Text) : Text :=
  if o.annotation = [] then (objectType body).value else o.annotation

theorem ambient_value (unit t : Text) : (ambient unit t).value =
    match Opening.read? (header t) with
    | none => trim t
    | some o =>
      let body := members ((lines (trim t)).map trim) o.initializer
      if startsWith ['{'] o.initializer then
        head o.name (literalType o body) ++ " \x7b\n".toList ++ renderMembers unit body ++
          "\n\x7d;".toList
      else head o.name (valueType o (lines (trim t)).length) ++ [';'] := by
  simp only [ambient, header, List.length_map]
  generalize Opening.read? _ = opening
  cases opening with
  | none => rfl
  | some o =>
    simp only [literalType]
    split
    · split <;> rfl
    · rfl

theorem exists_word {header : Text} {o : Opening} (h : Opening.read? header = some o) :
    ∃ w : Word, w.text = o.name := by
  obtain ⟨⟨name, rest⟩, named, rfl⟩ := Option.map_eq_some_iff.1 h
  cases header with
  | nil => cases named
  | cons c r =>
    rw [name?] at named
    split at named
    · next start =>
      obtain ⟨rfl, -⟩ := Prod.mk.inj (Option.some.inj named)
      exact ⟨⟨c, r.takeWhile isNameChar, start,
        fun d member => List.all_eq_true.1 List.all_takeWhile d member⟩, rfl⟩
    · cases named

theorem head_eq (name type : Text) :
    head name type = "export declare const ".toList ++ name ++ ": ".toList ++ type := rfl

/-- The words before a type have no brackets, and a colon stands before the type. -/
theorem bracketBalance_head (w : Word) (type : Text) :
    bracketBalance (head w.text type) = bracketBalance (':' :: type) := by
  have plain : Word.constWord.text ∉ operandWords := by decide
  have spelled : head w.text type =
      "export declare ".toList ++ ("const ".toList ++ (w.text ++ (':' :: ([' '] ++ type)))) := by
    simp [head_eq]
  have stop : ∀ c ∈ (':' :: ([' '] ++ type)).head?, isNameChar c = false := by
    intro c first
    obtain rfl : ':' = c := Option.some.inj first
    decide
  calc bracketBalance (head w.text type)
      = bracketBalance ("const ".toList ++ (w.text ++ (':' :: ([' '] ++ type)))) :=
        (congrArg bracketBalance spelled).trans (bracketBalance_declared _)
    _ = bracketBalance (w.text ++ (':' :: ([' '] ++ type))) := bracketBalance_spaced plain _
    _ = bracketBalance (':' :: ([' '] ++ type)) := by
        refine bracketBalance_word stop (.inr ?_)
        rw [trimLeft_of_head rfl (by decide)]
        simp
    _ = bracketBalance (':' :: type) := bracketBalance_colon (by decide) type

/-- **A constant without an object literal has the balance of its annotation.** -/
theorem bracketBalance_value (w : Word) (o : Opening) (lineCount : Nat) :
    bracketBalance (head w.text (valueType o lineCount) ++ [';']) =
      bracketBalance (':' :: o.annotation) := by
  have none : bracketBalance [':'] = 0 := bracketBalance_of_free (by decide)
  have function : bracketBalance (':' :: functionType) = 0 := by decide +kernel
  have any : bracketBalance (':' :: "any".toList) = 0 := bracketBalance_of_free (by decide)
  rw [bracketBalance_ended, bracketBalance_head, valueType]
  split
  · rfl
  · next missing =>
    rw [show o.annotation = [] by simpa using missing, none]
    split
    · exact function
    · split
      · exact any
      · refine bracketBalance_of_free ?_
        cases ValueKind.classify o.initializer <;> decide

theorem written_head (w : Word) {type : Text} (h : Written type) :
    Written (head w.text type) ∧ bracketBalance (head w.text type) = bracketBalance type := by
  have words : ∀ c ∈ "export declare const ".toList ++ ": ".toList, isBare c = true := by decide
  have front : ∀ c ∈ "export declare const ".toList ++ w.text ++ ": ".toList, isBare c = true := by
    intro c member
    rcases List.mem_append.1 member with inside | colon
    · rcases List.mem_append.1 inside with word | name
      · exact words c (List.mem_append_left _ word)
      · exact isBare_of_isDull (isDull_of_isNameChar (w.all_chars c name))
    · exact words c (List.mem_append_right _ colon)
  obtain ⟨written, balance⟩ := written_behind_bare front h
  exact ⟨written, balance⟩

theorem written_indexSignature (k : ValueKind) :
    Written (indexSignature k) ∧ bracketBalance (indexSignature k) = 0 := by
  have name : ∀ c ∈ ": ".toList ++ k.typeName ++ [' '], isBare c = true := by cases k <;> decide
  let segs : List Segment := [.bracket '{' (by decide), .run [' '] (by decide),
    .bracket '[' (by decide), .run "key: string".toList (by decide), .bracket ']' (by decide),
    .run (": ".toList ++ k.typeName ++ [' ']) name, .bracket '}' (by decide)]
  have spelled : Segment.spell segs = indexSignature k := by cases k <;> rfl
  refine ⟨⟨segs, spelled⟩, ?_⟩
  rw [← spelled, bracketBalance_eq, marks_spell]
  cases k <;> rfl

/-- The annotation ends what it starts and pairs its brackets; an empty one does. -/
def Opening.Typed (o : Opening) : Prop := Written o.annotation ∧ bracketBalance o.annotation = 0

theorem Opening.Typed.literalType {o : Opening} (h : o.Typed) (body : List Text) :
    Written (Constant.literalType o body) ∧ bracketBalance (Constant.literalType o body) = 0 := by
  unfold Constant.literalType
  split
  · exact written_indexSignature _
  · exact h

/-- An object literal in ambient form has the balances of its members. -/
theorem bracketBalance_literal {unit : Text} (spaces : ∀ c ∈ unit, isSpace c = true) (w : Word)
    {type : Text} (typed : Written type ∧ bracketBalance type = 0) {body : List Text}
    (closed : ∀ l ∈ body, Closed l) :
    bracketBalance (head w.text type ++ " \x7b\n".toList ++ renderMembers unit body ++
      "\n\x7d;".toList) = (body.map bracketBalance).sum := by
  obtain ⟨front, balance⟩ := written_head w typed.1
  have keeps (level : Nat) (l : Text) (h : Closed l) :
      Closed (indentation unit level ++ renderMember l) ∧
        bracketBalance (indentation unit level ++ renderMember l) = bracketBalance l := by
    obtain ⟨member, same⟩ := closed_renderMember h
    rw [← same]
    exact closed_indentation spaces level member
  obtain ⟨rendered, sum⟩ := closed_levels keeps closed
  have braced := bracketBalance_braced front rendered
  rw [balance, typed.2, Int.zero_add, sum] at braced
  have spelled : head w.text type ++ " \x7b\n".toList ++ renderMembers unit body ++
      "\n\x7d;".toList = head w.text type ++ " \x7b\n".toList ++ renderMembers unit body ++
        "\n\x7d".toList ++ [';'] := by simp
  rw [spelled, bracketBalance_ended]
  exact braced

/-- The text between the braces of an object literal on the opening line. -/
def Opening.inside (o : Opening) : Text :=
  ((beforeLast? '}' o.initializer).getD o.initializer).drop 1

/-- The layouts of a constant's opening line and value that keep its brackets. -/
inductive Opening.Fits (t : Text) (o : Opening) : Prop
  | value (plain : startsWith ['{'] o.initializer = false)
      (paired : bracketBalance (':' :: o.annotation) = 0)
  | inline (object : startsWith ['{'] o.initializer = true) (typed : o.Typed)
      (single : (lines (trim t)).length = 1) (inline : Inline false ',' o.inside)
      (paired : bracketBalance o.inside = 0)
  /-- Comment lines are left out, so their brackets have to pair up. -/
  | block {first last : Text} {inner : List Text} (object : startsWith ['{'] o.initializer = true)
      (typed : o.Typed) (block : Block t first inner last) (opens : bracketBalance first = 1)
      (comments : ∀ l ∈ inner, isCommentLine (trim l) = true → bracketBalance l = 0)

/-- A constant without a plain name, or one whose opening line fits. -/
def Layout (t : Text) : Prop := ∀ o, Opening.read? (header t) = some o → o.Fits t

theorem balanced {unit : Text} (spaces : ∀ c ∈ unit, isSpace c = true) {t : Text}
    (h : bracketBalance t = 0) (layout : Layout t) : bracketBalance (ambient unit t).value = 0 := by
  rw [ambient_value]
  cases read : Opening.read? (header t) with
  | none => exact (bracketBalance_trim t).trans h
  | some o =>
    obtain ⟨w, name⟩ := exists_word read
    simp only [← name]
    cases layout o read with
    | value plain paired => rw [if_neg (by simp [plain]), bracketBalance_value w o, paired]
    | inline object typed single inline paired =>
      obtain ⟨parts, sum⟩ := split_closed (by decide) inline.free inline.written inline.quiet
      have members : members ((lines (trim t)).map trim) o.initializer =
          Nesting.split false [','] o.inside := by
        rw [Constant.members, if_neg (by simp [single])]
        rfl
      rw [if_pos object, members, bracketBalance_literal spaces w (typed.literalType _)
        fun l member => closed_of_written (parts l member).1 (parts l member).2, sum, paired]
    | @block first last inner object typed block opens comments =>
      have members : members ((lines (trim t)).map trim) o.initializer =
          (inner.map trim).filter fun l => !isCommentLine l := by
        rw [Constant.members, if_pos (by simp [block.spelled]), block.interior_trimmed]
      have closed : ∀ l ∈ (inner.map trim).filter fun l => !isCommentLine l, Closed l := by
        intro l member
        obtain ⟨source, inside, rfl⟩ := List.mem_map.1 (List.mem_filter.1 member).1
        exact closed_trim (block.closed_inner source inside)
      have sum : (((inner.map trim).filter fun l => !isCommentLine l).map bracketBalance).sum =
          (inner.map bracketBalance).sum :=
        sum_filtered fun l member comment => comments l member (by simpa using comment)
      have whole := block.balance
      rw [if_pos object, members, bracketBalance_literal spaces w (typed.literalType _) closed, sum]
      omega

end Constant

/-! ### Interfaces -/

/-- The sign that is found stands there. -/
theorem split_of_find? {angles : Bool} {c : Char} {t : Text} {n : Nat}
    (h : Nesting.find? angles [c] 0 t = some n) : t = t.take n ++ c :: t.drop (n + 1) := by
  obtain ⟨-, -, -, here⟩ := Nesting.find?_hit h
  calc
    t = t.take n ++ ((t.drop n).take 1 ++ (t.drop n).drop 1) := by
      rw [List.take_append_drop, List.take_append_drop]
    _ = t.take n ++ ([c] ++ t.drop (n + 1)) := by rw [List.drop_drop, ← here]; rfl

theorem written_of_trim {t : Text} (h : Written (trim t)) : Written t := by
  obtain ⟨w, blank, split⟩ := exists_trimRight_append (trimLeft t)
  have blanks {v : Text} (h : ∀ c ∈ v, isBlank c = true) : Written v :=
    .of_bare fun c member => isBare_of_isDull (isDull_of_isBlank (h c member))
  obtain ⟨v, blank', whole⟩ := exists_trimLeft_append t
  rw [whole, split]
  exact (blanks blank').append (h.append (blanks blank))

namespace Interface

/-- The opening line from the name on. -/
def opening (t : Text) : Text := header (trim ((lines (trim t)).headD []))

theorem bracketBalance_header (first : Text) :
    bracketBalance (header first) = bracketBalance first := by
  have plain : Word.interfaceWord.text ∉ operandWords := by decide
  unfold header
  cases found : (afterDeclare? first).bind (afterSpaced? "interface".toList) with
  | none => rfl
  | some r =>
    obtain ⟨u, declared, word⟩ := Option.bind_eq_some_iff.1 found
    rw [bracketBalance_afterDeclare? declared]
    exact (bracketBalance_of_afterSpaced? plain word).symm

/-- What stands behind the brace on the opening line. -/
def remainder (t : Text) (brace : Nat) : Text := (opening t).drop (brace + 1)

/-- The text between the braces of an interface on one line. -/
def inside (t : Text) (brace : Nat) : Text :=
  (beforeLast? '}' (remainder t brace)).getD (remainder t brace)

/-- The name ends what it starts, pairs its brackets and stands before the brace on its line. -/
structure Named (t : Text) (brace : Nat) : Prop where
  found : Nesting.find? true ['{'] 0 (opening t) = some brace
  written : Written (trim ((opening t).take brace))
  paired : bracketBalance ((opening t).take brace) = 0

/-- The layouts of an interface that keep its brackets. -/
inductive Layout (t : Text) : Prop
  | inline {brace : Nat} (named : Named t brace) (single : (lines (trim t)).length = 1)
      (inline : Inline true ';' (inside t brace))
      (quiet : ∀ chunk ∈ Nesting.split true [';'] (inside t brace),
        ∀ m ∈ Nesting.split true [','] chunk, regex? m = none)
      (paired : bracketBalance (inside t brace) = 0)
  | block {brace : Nat} {first last : Text} {inner : List Text} (named : Named t brace)
      (block : Block t first inner last) (closed : Closed (remainder t brace))

theorem closed_memberLine {unit : Text} (spaces : ∀ c ∈ unit, isSpace c = true) (level : Nat)
    {l : Text} (h : Closed l) :
    Closed (memberLine unit level l) ∧
      bracketBalance (memberLine unit level l) = bracketBalance l := by
  unfold memberLine
  split
  · obtain ⟨starred, same⟩ := closed_prepend (w := [' ']) (by decide) h
    rw [← same]
    exact closed_indentation spaces level starred
  · exact closed_indentation spaces level h

theorem ambient_eq (unit t : Text) : ambient unit t =
    "export declare interface ".toList ++ (parts (lines (trim t))).1 ++ " \x7b\n".toList ++
      joinLines ((Nesting.levels 1 (parts (lines (trim t))).2).map fun p =>
        memberLine unit p.1 p.2) ++ "\n\x7d".toList := rfl

/-- An interface in ambient form has the balances of its members. -/
theorem bracketBalance_ambient {unit : Text} (spaces : ∀ c ∈ unit, isSpace c = true) {t name : Text}
    {members : List Text} (parted : parts (lines (trim t)) = (name, members))
    (written : Written name) (paired : bracketBalance name = 0) (closed : ∀ l ∈ members, Closed l) :
    bracketBalance (ambient unit t) = (members.map bracketBalance).sum := by
  have words : ∀ c ∈ "export declare interface ".toList, isBare c = true := by decide
  obtain ⟨front, balance⟩ := written_behind_bare words written
  obtain ⟨rendered, sum⟩ := closed_levels (closed_memberLine spaces) closed
  rw [ambient_eq, parted, bracketBalance_braced front rendered, balance, paired, Int.zero_add, sum]

/-- The name stands before the brace, and the members behind it. -/
theorem parts_of_found {t : Text} {brace : Nat}
    (found : Nesting.find? true ['{'] 0 (opening t) = some brace) :
    parts (lines (trim t)) = (trim ((opening t).take brace),
      if (lines (trim t)).length = 1 then inlineMembers (remainder t brace)
      else (if trim (remainder t brace) = [] then [] else [remainder t brace]) ++
        interior (lines (trim t))) := by
  unfold opening at found
  rw [parts, found]
  rfl

namespace Named

variable {t : Text} {brace : Nat}

theorem paired_trim (h : Named t brace) : bracketBalance (trim ((opening t).take brace)) = 0 :=
  (bracketBalance_trim _).trans h.paired

/-- The brace is open behind the name. -/
theorem balance (h : Named t brace) (closed : Closed (remainder t brace)) :
    bracketBalance (opening t) = 1 + bracketBalance (remainder t brace) := by
  let name := (opening t).take brace
  let rest := remainder t brace
  have front : Written name := written_of_trim h.written
  have sign : Written ['{'] := .of_bracket (by decide)
  have opens : bracketBalance ['{'] = 1 := by decide +kernel
  have split : opening t ++ ['\n'] = name ++ (['{'] ++ (rest ++ ['\n'])) := by
    conv => lhs; rw [split_of_find? h.found]
    simp [name, rest, remainder]
  calc bracketBalance (opening t)
      = bracketBalance (name ++ (['{'] ++ (rest ++ ['\n']))) := by rw [← bracketBalance_feed, split]
    _ = bracketBalance name + (bracketBalance ['{'] + bracketBalance (rest ++ ['\n'])) := by
        rw [front.bracketBalance_append (sign.append closed.2), sign.bracketBalance_append closed.2]
    _ = 1 + bracketBalance rest := by
        rw [show bracketBalance name = 0 from h.paired, opens, bracketBalance_feed, Int.zero_add]

end Named

/-- What stands behind the brace on its line is a member, unless it is blank. -/
theorem closed_remainder {r : Text} (h : Closed r) :
    (∀ l ∈ if trim r = [] then [] else [r], Closed l) ∧
      ((if trim r = [] then [] else [r]).map bracketBalance).sum = bracketBalance r := by
  split
  · next blank => exact ⟨nofun, (bracketBalance_of_blank blank).symm⟩
  · exact ⟨by simpa using h, by simp⟩

theorem sum_flatMap {f : Text → List Text} {cs : List Text}
    (h : ∀ c ∈ cs, ((f c).map bracketBalance).sum = bracketBalance c) :
    ((cs.flatMap f).map bracketBalance).sum = (cs.map bracketBalance).sum := by
  induction cs with
  | nil => rfl
  | cons c cs ih =>
    have later := ih fun d member => h d (List.mem_cons_of_mem c member)
    rw [List.flatMap_cons, List.map_append, List.sum_append, List.map_cons, List.sum_cons, later,
      h c List.mem_cons_self]

theorem balanced {unit : Text} (spaces : ∀ c ∈ unit, isSpace c = true) {t : Text}
    (h : bracketBalance t = 0) (layout : Layout t) : bracketBalance (ambient unit t) = 0 := by
  cases layout with
  | @inline brace named single inline quiet paired =>
    obtain ⟨chunks, total⟩ := split_closed (by decide) inline.free inline.written inline.quiet
    have members (c : Text) (chunk : c ∈ Nesting.split true [';'] (inside t brace)) :=
      split_closed (by decide) (chunks c chunk).1 (chunks c chunk).2 (quiet c chunk)
    have closed : ∀ l ∈ inlineMembers (remainder t brace), Closed l := by
      intro l member
      obtain ⟨c, chunk, part⟩ := List.mem_flatMap.1 member
      obtain ⟨free, written⟩ := (members c chunk).1 l part
      exact closed_of_written free written
    have sum : ((inlineMembers (remainder t brace)).map bracketBalance).sum =
        bracketBalance (inside t brace) :=
      (sum_flatMap fun c chunk => (members c chunk).2).trans total
    have parted := parts_of_found named.found
    rw [if_pos single] at parted
    rw [bracketBalance_ambient spaces parted named.written named.paired_trim closed, sum, paired]
  | @block brace first last inner named block closed =>
    obtain ⟨behind, sum⟩ := closed_remainder closed
    have several : (lines (trim t)).length ≠ 1 := by simp [block.spelled]
    have opened : bracketBalance (opening t) = bracketBalance first := by
      rw [opening, bracketBalance_header, bracketBalance_trim, block.spelled]
      rfl
    have first := named.balance closed
    have whole := block.balance
    have parted := parts_of_found named.found
    rw [if_neg several, block.interior_lines] at parted
    rw [bracketBalance_ambient spaces parted named.written named.paired_trim
      (List.forall_mem_append.2 ⟨behind, block.closed_inner⟩), List.map_append, List.sum_append,
      sum]
    omega

end Interface

/-! ### All kinds -/

/-- The layouts, by kind, that keep both sides of every bracket pair. -/
inductive Laid (t : Text) : DeclarationKind → Prop
  | constant : Constant.Layout t → Laid t .constant
  | interface : Interface.Layout t → Laid t .interface
  | typeAlias : Laid t .typeAlias
  | function : bracketBalance (Function.upToBody (trim t)) = 0 → Laid t .function
  | default : Laid t .default
  | verbatim : Laid t .verbatim

/-- **Balanced in, balanced out**, for every layout in `Laid`. -/
theorem balanced_of_laid {unit : Text} (spaces : ∀ c ∈ unit, isSpace c = true) {t : Text}
    (h : bracketBalance t = 0) (laid : Laid t (.detect t)) (comment : Option Text) (line : Int) :
    let d := (Declaration.ofText (.plain unit) (.detect t) t comment line).value
    bracketBalance d.text = 0 := by
  generalize DeclarationKind.detect t = kind at laid ⊢
  cases laid with
  | constant layout => exact Constant.balanced spaces h layout
  | interface layout => exact Interface.balanced spaces h layout
  | typeAlias => exact (bracketBalance_ambientAlias t).trans h
  | function header => exact (Function.bracketBalance_ambient t).trans header
  | default => exact (bracketBalance_ambientDefault t).trans h
  | verbatim => exact (bracketBalance_trim t).trans h

/-- An object literal over lines keeps its brackets; the one in its comment does not count. -/
theorem object_over_lines_balanced :
    let t : Text := joinLines ["export const conf: Conf = \x7b".toList,
      "  // retries (at most".toList, "  retry: \x7b max: 3 \x7d,".toList, "\x7d".toList]
    let d := (Declaration.ofText (.plain "  ".toList) (.detect t) t none 1).value
    bracketBalance t = 0 ∧ Laid t (.detect t) ∧ bracketBalance d.text = 0 := by
  intro t d
  have opening : Closed "export const conf: Conf = \x7b".toList :=
    ⟨by decide, [.run "export const conf: Conf = ".toList (by decide), .bracket '{' (by decide),
      .run ['\n'] (by decide)], by decide +kernel⟩
  have comment : Closed "  // retries (at most".toList :=
    ⟨by decide, [.run "  ".toList (by decide), .lineComment " retries (at most".toList (by decide)],
      by decide +kernel⟩
  have nested : Closed "  retry: \x7b max: 3 \x7d,".toList :=
    ⟨by decide, [.run "  retry: ".toList (by decide), .bracket '{' (by decide),
      .run " max: 3 ".toList (by decide), .bracket '}' (by decide), .run ",\n".toList (by decide)],
      by decide +kernel⟩
  have closing : Closed "\x7d".toList :=
    ⟨by decide, [.bracket '}' (by decide), .run ['\n'] (by decide)], by decide +kernel⟩
  have block : Block t "export const conf: Conf = \x7b".toList
      ["  // retries (at most".toList, "  retry: \x7b max: 3 \x7d,".toList] "\x7d".toList :=
    ⟨by decide +kernel, List.forall_mem_cons.2 ⟨opening, List.forall_mem_cons.2 ⟨comment,
      List.forall_mem_cons.2 ⟨nested, List.forall_mem_cons.2 ⟨closing, nofun⟩⟩⟩⟩, by decide,
      by decide +kernel⟩
  have paired : bracketBalance t = 0 := by decide +kernel
  have laid : Laid t (.detect t) := by
    have kind : DeclarationKind.detect t = .constant := by decide +kernel
    have read : Constant.Opening.read? (Constant.header t) =
        some ⟨"conf".toList, "Conf".toList, "\x7b".toList⟩ := by decide +kernel
    rw [kind]
    refine .constant fun o found => ?_
    obtain rfl := Option.some.inj (read.symm.trans found)
    exact .block (by decide) ⟨.of_bare (by decide), by decide +kernel⟩ block (by decide +kernel)
      (by decide +kernel)
  exact ⟨paired, laid, balanced_of_laid (by decide) paired laid none 1⟩

/-- An annotation that goes on behind the opening line is cut there, within its braces. -/
theorem annotation_cut_at_line :
    let t : Text := "export const conf: \x7b\n  a: string\n\x7d = load()".toList
    let d := (Declaration.ofText (.plain "  ".toList) (.detect t) t none 0).value
    bracketBalance t = 0 ∧ d.kind = .constant ∧
      d.text = "export declare const conf: \x7b;".toList ∧ bracketBalance d.text = 1 := by
  decide +kernel

end Ambient
