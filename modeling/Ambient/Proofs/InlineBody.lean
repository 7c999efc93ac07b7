import Ambient.Proofs.Annotation

/-!
Bodies written on one line. What stands between the first brace and the last closing one is taken for
the body, so the text behind the body stays out of it exactly when it holds no closing brace itself.
-/

namespace Ambient

open Atom Lexer

/-! ### The last closing brace -/

theorem beforeLast?_eq_none_iff {c : Char} {t : Text} : beforeLast? c t = none ↔ c ∉ t := by
  induction t with
  | nil => simp [beforeLast?]
  | cons d t ih =>
    rw [beforeLast?, List.mem_cons, not_or, ← ih]
    cases beforeLast? c t with
    | none => simp [eq_comm (a := c)]
    | some front => simp

theorem beforeLast?_append {c : Char} {w : Text} (free : c ∉ w) (t : Text) :
    beforeLast? c (t ++ w) = beforeLast? c t := by
  induction t with
  | nil => exact beforeLast?_eq_none_iff.2 free
  | cons d t ih => rw [List.cons_append, beforeLast?, ih, beforeLast?]

/-- What the braces of a line hold when `body` stands between the first brace and a closing one and
`rest` behind it: a closing brace in `rest` is taken for the last. -/
def throughLast (body rest : Text) : Text :=
  match beforeLast? '}' rest with
  | none => body
  | some front => body ++ '}' :: front

theorem beforeLast?_body (body rest : Text) :
    beforeLast? '}' (body ++ '}' :: rest) = some (throughLast body rest) := by
  induction body with
  | nil =>
    rw [List.nil_append, beforeLast?, throughLast]
    cases beforeLast? '}' rest <;> rfl
  | cons c body ih =>
    rw [List.cons_append, beforeLast?, ih, throughLast, throughLast]
    cases beforeLast? '}' rest <;> rfl

theorem throughLast_trimRight (body rest : Text) :
    throughLast body (trimRight rest) = throughLast body rest := by
  obtain ⟨w, blank, cut⟩ := exists_trimRight_append rest
  have free : '}' ∉ w := fun member => absurd (blank '}' member) (by decide)
  rw [throughLast, throughLast]
  conv => rhs; rw [cut]
  rw [beforeLast?_append free]

theorem throughLast_of_free {rest : Text} (free : '}' ∉ rest) (body : Text) :
    throughLast body rest = body := by
  rw [throughLast, beforeLast?_eq_none_iff.2 free]

/-- A closing brace behind the body comes into it. -/
theorem count_throughLast {rest : Text} (brace : '}' ∈ rest) (body : Text) :
    body.count '}' < (throughLast body rest).count '}' := by
  rw [throughLast]
  split
  · next none => exact absurd brace (beforeLast?_eq_none_iff.1 none)
  · simp only [List.count_append, List.count_cons_self]
    omega

/-! ### Parts -/

theorem count_trim {c : Char} (solid : isBlank c = false) (t : Text) :
    (trim t).count c = t.count c := by
  have none {w : Text} (blank : ∀ d ∈ w, isBlank d = true) : w.count c = 0 := by
    refine List.count_eq_zero.2 fun member => ?_
    rw [blank c member] at solid
    cases solid
  obtain ⟨v, front, left⟩ := exists_trimLeft_append t
  obtain ⟨w, back, right⟩ := exists_trimRight_append (trimLeft t)
  conv => rhs; rw [left, right]
  rw [List.count_append, List.count_append, none front, none back, trim]
  omega

theorem count_partsFrom {angles : Bool} {sep c : Char} (other : sep ≠ c) (depth : Int) (part : Text)
    (start : Nat) (ls : List Lexeme) :
    (Nesting.partsFrom angles [sep] depth part (Lexeme.place start ls)).flatten.count c =
      part.count c + (Lexeme.spell ls).count c := by
  induction ls generalizing depth part start with
  | nil => simp [Lexeme.place, Nesting.partsFrom, Lexeme.spell]
  | cons l ls ih =>
    rw [Lexeme.place, Nesting.partsFrom, Lexeme.spell_cons, List.count_append]
    split
    · next top =>
      have text : l.text = [sep] := by
        simp only [Token.isTop, Bool.and_eq_true, beq_iff_eq] at top
        exact top.2
      rw [List.flatten_cons, List.count_append, ih, text]
      simp [other]
    · rw [ih, List.count_append, Nat.add_assoc]

/-- Cutting at separators keeps every other solid sign. -/
theorem count_split {angles : Bool} {sep c : Char} (other : sep ≠ c) (solid : isBlank c = false)
    (t : Text) : (Nesting.split angles [sep] t).flatten.count c = t.count c := by
  have trimmed (ps : List Text) :
      ((ps.map trim).filter (· != [])).flatten.count c = ps.flatten.count c := by
    induction ps with
    | nil => rfl
    | cons p ps ih =>
      rw [List.map_cons, List.filter_cons, List.flatten_cons, List.count_append, ← ih,
        ← count_trim solid p]
      split
      · rw [List.flatten_cons, List.count_append]
      · next empty => simp [show trim p = [] by simpa using empty]
  rw [Nesting.split, trimmed, tokens, count_partsFrom other, spell_lex]
  simp

/-- The members of an interface on one line, which commas and semicolons part. -/
def interfaceMembers (body : Text) : List Text :=
  (Nesting.split true [';'] body).flatMap (Nesting.split true [','])

theorem count_interfaceMembers (body : Text) :
    (interfaceMembers body).flatten.count '}' = body.count '}' := by
  have inner (chunks : List Text) :
      (chunks.flatMap (Nesting.split true [','])).flatten.count '}' = chunks.flatten.count '}' := by
    induction chunks with
    | nil => rfl
    | cons chunk chunks ih =>
      rw [List.flatMap_cons, List.flatten_append, List.count_append, ih,
        count_split (by decide) (by decide), List.flatten_cons, List.count_append]
  rw [interfaceMembers, inner, count_split (by decide) (by decide)]

/-- Parts that keep the closing braces of a body are those of the body alone exactly when no closing
brace follows it. -/
theorem parts_throughLast {parts : Text → List Text}
    (keeps : ∀ t, (parts t).flatten.count '}' = t.count '}') (body rest : Text) :
    parts (throughLast body rest) = parts body ↔ '}' ∉ rest := by
  refine ⟨fun same brace => ?_, fun free => by rw [throughLast_of_free free]⟩
  have more := count_throughLast brace body
  rw [← keeps (throughLast body rest), same, keeps] at more
  exact Nat.lt_irrefl _ more

/-! ### Declarations on one line -/

/-- Blanks go only behind the brace that closes a body. -/
theorem trim_closed {front : Text} {c : Char} (head : front.head? = some c) (solid : isBlank c = false)
    (rest : Text) : trim (front ++ '}' :: rest) = front ++ '}' :: trimRight rest := by
  have split (r : Text) : front ++ '}' :: r = (front ++ ['}']) ++ r := by simp
  have left : trimLeft (front ++ '}' :: rest) = front ++ '}' :: rest :=
    trimLeft_of_head (by rw [List.head?_append, head]; rfl) solid
  have last : (front ++ ['}']).getLast? = some '}' := List.getLast?_concat
  rw [trim, left, split rest, trimRight_append_of_getLast last (by decide), ← split (trimRight rest)]

/-- A declaration on one line, without the blanks at its end. -/
theorem lines_trim_inline {front rest : Text} {c : Char} (head : front.head? = some c)
    (solid : isBlank c = false) (free : '\n' ∉ front) (flat : '\n' ∉ rest) :
    lines (trim (front ++ '}' :: rest)) = [front ++ '}' :: trimRight rest] ∧
      trim (front ++ '}' :: trimRight rest) = front ++ '}' :: trimRight rest := by
  obtain ⟨w, -, cut⟩ := exists_trimRight_append rest
  have flatRest : '\n' ∉ trimRight rest := by
    intro member
    exact flat (cut ▸ List.mem_append_left w member)
  refine ⟨?_, by rw [trim_closed head solid, trimRight_trimRight]⟩
  rw [trim_closed head solid]
  exact pieces_of_free (by simp [free, flatRest])

theorem feed_free_name (name : Word) : '\n' ∉ name.text :=
  fun member => absurd (name.all_chars _ member) (by decide)

namespace Constant

/-- The opening line of a constant whose value starts with a brace. -/
theorem read?_object (name : Word) (r : Text) :
    Opening.read? (name.text ++ ' ' :: '=' :: ' ' :: '{' :: r) =
      some ⟨name.text, [], trim ('{' :: r)⟩ := by
  have stop : ∀ c ∈ (' ' :: '=' :: ' ' :: '{' :: r).head?, isNameChar c = false := by
    intro c head
    obtain rfl : ' ' = c := Option.some.inj head
    decide
  have assign : Nesting.find? true ['='] 0 (' ' :: '=' :: ' ' :: '{' :: r) = some 1 := by
    obtain ⟨ls, read⟩ := exists_lex_assign none ('{' :: r)
    have lexed : lex .code none (' ' :: '=' :: ' ' :: '{' :: r) =
        ⟨.blank, [' ']⟩ :: ⟨.operator, ['=']⟩ :: ls :=
      (lex_blanks (by decide) none ('=' :: ' ' :: '{' :: r)).trans (congrArg _ read)
    rw [Nesting.find?, tokens, lexed]
    rfl
  have untyped : startsWith [':'] (trimLeft [' ']) = false := by decide
  simp only [Opening.read?, name?_word name stop, Option.map_some, assign, Option.getD_some,
    List.take_succ_cons, List.take_zero, untyped, Bool.false_eq_true, ↓reduceIte, List.drop_succ_cons,
    List.drop_zero, trim_space]

/-- A constant with its object literal on one line. -/
def inline (name : Word) (body rest : Text) : Text :=
  "export const ".toList ++ name.text ++ " = \x7b".toList ++ body ++ '}' :: rest

theorem inline_eq (name : Word) (body rest : Text) : inline name body rest =
    "export const ".toList ++ name.text ++ " = \x7b".toList ++ body ++ '}' :: rest := rfl

theorem inline_split (name : Word) (body rest : Text) : inline name body rest =
    "export const ".toList ++ (name.text ++ ' ' :: '=' :: ' ' :: '{' :: (body ++ '}' :: rest)) := by
  have assign : " = \x7b".toList = [' ', '=', ' ', '{'] := rfl
  rw [inline_eq, assign]
  simp only [List.append_assoc, List.cons_append, List.nil_append]

theorem lines_inline (name : Word) {body rest : Text} (flat : '\n' ∉ body) (flatRest : '\n' ∉ rest) :
    lines (trim (inline name body rest)) = [inline name body (trimRight rest)] ∧
      trim (inline name body (trimRight rest)) = inline name body (trimRight rest) := by
  have head : ("export const ".toList ++ name.text ++ " = \x7b".toList ++ body).head? = some 'e' := by
    rw [List.append_assoc, List.append_assoc, List.head?_append]
    rfl
  rw [inline_eq, inline_eq]
  refine lines_trim_inline head (by decide) ?_ flatRest
  have words : '\n' ∉ "export const ".toList ∧ '\n' ∉ " = \x7b".toList := by decide
  simp only [List.mem_append, not_or]
  exact ⟨⟨⟨words.1, feed_free_name name⟩, words.2⟩, flat⟩

/-- **The members on one line are those up to the last closing brace.** -/
theorem ambient_inline (unit : Text) (name : Word) {body rest : Text} (flat : '\n' ∉ body)
    (flatRest : '\n' ∉ rest) : (ambient unit (inline name body rest)).value =
      let members := Nesting.split false [','] (throughLast body rest)
      head name.text (objectType members).value ++ " \x7b\n".toList ++ renderMembers unit members ++
        "\n\x7d;".toList := by
  obtain ⟨single, kept⟩ := lines_inline name flat flatRest
  let value : Text := '{' :: (body ++ '}' :: trimRight rest)
  have object : trim value = value := by
    have closed : trim (('{' :: body) ++ '}' :: trimRight rest) =
        ('{' :: body) ++ '}' :: trimRight (trimRight rest) :=
      trim_closed (c := '{') rfl (by decide) (trimRight rest)
    rwa [trimRight_trimRight] at closed
  have opening : Constant.header (inline name body rest) = name.text ++ ' ' :: '=' :: ' ' :: value := by
    refine header_of_first (c := name.first) ?_ rfl (isBlank_of_isNameStart name.start)
    rw [single, List.headD_cons, kept, inline_split]
  have read : Opening.read? (Constant.header (inline name body rest)) = some ⟨name.text, [], value⟩ := by
    rw [opening, read?_object, object]
  have inside (line : Text) : members [line] value = Nesting.split false [','] (throughLast body rest) := by
    have last : beforeLast? '}' value = some ('{' :: throughLast body rest) := by
      rw [beforeLast?, beforeLast?_body, throughLast_trimRight]
    rw [members, if_neg (by simp), last]
    rfl
  have brace : startsWith ['{'] value = true := rfl
  rw [ambient_value, read, single, List.map_singleton, kept]
  simp only [inside, literalType, brace, ↓reduceIte]

end Constant

namespace Interface

/-- The brace right behind a name and a blank is found. -/
theorem find?_named (name : Word) (r : Text) :
    Nesting.find? true ['{'] 0 (name.text ++ ' ' :: '{' :: r) = some (name.text.length + 1) := by
  have stop : ∀ c ∈ (' ' :: '{' :: r).head?, isNameChar c = false := by
    intro c head
    obtain rfl : ' ' = c := Option.some.inj head
    decide
  have quiet : Quiet (name.text ++ ' ' :: '{' :: r) := by
    refine quiet_word stop (.inr ?_)
    rw [trimLeft_space, trimLeft_of_head rfl (by decide)]
    simp
  obtain ⟨ls, read⟩ := exists_lex_brace none r
  have blank (last : Option Char) : lex .code last (' ' :: '{' :: r) =
      ⟨.blank, [' ']⟩ :: ⟨.bracket, ['{']⟩ :: ls :=
    (lex_blanks (by decide) last ('{' :: r)).trans (congrArg _ read)
  have lexed : lex .code none (name.text ++ ' ' :: '{' :: r) =
      ⟨name.kind, name.text⟩ :: ⟨.blank, [' ']⟩ :: ⟨.bracket, ['{']⟩ :: ls := by
    rw [← blank name.text.getLast?]
    exact lex_of_step (step_word rfl stop quiet)
  rw [Nesting.find?, tokens, lexed]
  exact (Canonical.findFrom_named name _ _).trans (by rw [Nat.zero_add])

/-- An interface with its members on one line. -/
def inline (name : Word) (body rest : Text) : Text :=
  "export interface ".toList ++ name.text ++ " \x7b".toList ++ body ++ '}' :: rest

theorem inline_eq (name : Word) (body rest : Text) : inline name body rest =
    "export interface ".toList ++ name.text ++ " \x7b".toList ++ body ++ '}' :: rest := rfl

theorem inline_split (name : Word) (body rest : Text) : inline name body rest =
    "export interface ".toList ++ (name.text ++ ' ' :: '{' :: (body ++ '}' :: rest)) := by
  have brace : " \x7b".toList = [' ', '{'] := rfl
  rw [inline_eq, brace]
  simp only [List.append_assoc, List.cons_append, List.nil_append]

theorem lines_inline (name : Word) {body rest : Text} (flat : '\n' ∉ body) (flatRest : '\n' ∉ rest) :
    lines (trim (inline name body rest)) = [inline name body (trimRight rest)] ∧
      trim (inline name body (trimRight rest)) = inline name body (trimRight rest) := by
  have head : ("export interface ".toList ++ name.text ++ " \x7b".toList ++ body).head? = some 'e' := by
    rw [List.append_assoc, List.append_assoc, List.head?_append]
    rfl
  rw [inline_eq, inline_eq]
  refine lines_trim_inline head (by decide) ?_ flatRest
  have words : '\n' ∉ "export interface ".toList ∧ '\n' ∉ " \x7b".toList := by decide
  simp only [List.mem_append, not_or]
  exact ⟨⟨⟨words.1, feed_free_name name⟩, words.2⟩, flat⟩

/-- **The members on one line are those up to the last closing brace.** -/
theorem ambient_inline (unit : Text) (name : Word) {body rest : Text} (flat : '\n' ∉ body)
    (flatRest : '\n' ∉ rest) : ambient unit (inline name body rest) =
      "export declare interface ".toList ++ name.text ++ " \x7b\n".toList ++
        joinLines ((Nesting.levels 1 (interfaceMembers (throughLast body rest))).map fun p =>
          memberLine unit p.1 p.2) ++ "\n\x7d".toList := by
  obtain ⟨single, kept⟩ := lines_inline name flat flatRest
  have found (r : Text) : header ("export interface ".toList ++ r) = trimLeft r := rfl
  let behind : Text := body ++ '}' :: trimRight rest
  have first : (name.text ++ ' ' :: '{' :: behind).head? = some name.first := rfl
  have opened : header (trim (inline name body (trimRight rest))) =
      name.text ++ ' ' :: '{' :: behind := by
    rw [kept, inline_split, found, trimLeft_of_head first (isBlank_of_isNameStart name.start)]
  have named : trim ((name.text ++ ' ' :: '{' :: behind).take (name.text.length + 1)) = name.text := by
    rw [List.take_length_add_append]
    exact (trim_append_blank (w := [' ']) (by decide) _).trans (Canonical.trim_word name)
  have left : (name.text ++ ' ' :: '{' :: behind).drop (name.text.length + 1 + 1) = behind := by
    rw [Nat.add_assoc, List.drop_length_add_append]
    rfl
  have members : inlineMembers behind = interfaceMembers (throughLast body rest) := by
    rw [inlineMembers, beforeLast?_body, throughLast_trimRight]
    rfl
  have parted : parts [inline name body (trimRight rest)] =
      (name.text, interfaceMembers (throughLast body rest)) := by
    simp only [parts, List.headD_cons, opened, find?_named, named, left, List.length_singleton,
      ↓reduceIte, members]
  rw [ambient_eq, single, parted]

end Interface

/-- Parts are laid out one to a line, in order. -/
theorem levels_of_parts {ps : List Text} (solid : ∀ p ∈ ps, trim p = p ∧ p ≠ []) :
    (Nesting.levels 1 ps).map (·.2) = ps := by
  have trimmed : ps.map trim = ps := List.map_congr_left (fun p member => (solid p member).1) |>.trans
    (List.map_id ps)
  have kept : ps.filter (· != []) = ps :=
    List.filter_eq_self.2 fun p member => by simpa using (solid p member).2
  rw [Nesting.levels, levelsFrom_snd, trimmed, kept]

theorem solid_split {angles : Bool} {sep : Char} {t : Text} :
    ∀ p ∈ Nesting.split angles [sep] t, trim p = p ∧ p ≠ [] := by
  intro p member
  obtain ⟨inside, solid⟩ := List.mem_filter.1 member
  obtain ⟨source, -, rfl⟩ := List.mem_map.1 inside
  exact ⟨trim_trim source, by simpa using solid⟩

/-- **A body on one line ends at the last closing brace of the line.** A constant and an interface
written on one line keep the members up to there, one to a line; these are the members of the body
exactly when no closing brace follows it. -/
theorem inline_body_read (unit : Text) (name : Word) {body rest : Text} (flat : '\n' ∉ body)
    (flatRest : '\n' ∉ rest) :
    let values := Nesting.split false [','] (throughLast body rest)
    let members := interfaceMembers (throughLast body rest)
    ((Constant.ambient unit (Constant.inline name body rest)).value =
        Constant.head name.text (objectType values).value ++ " \x7b\n".toList ++
          renderMembers unit values ++ "\n\x7d;".toList ∧
      (Nesting.levels 1 values).map (·.2) = values ∧
      (values = Nesting.split false [','] body ↔ '}' ∉ rest)) ∧
    (Interface.ambient unit (Interface.inline name body rest) =
        "export declare interface ".toList ++ name.text ++ " \x7b\n".toList ++
          joinLines ((Nesting.levels 1 members).map fun p => Interface.memberLine unit p.1 p.2) ++
          "\n\x7d".toList ∧
      (Nesting.levels 1 members).map (·.2) = members ∧
      (members = interfaceMembers body ↔ '}' ∉ rest)) := by
  intro values members
  have inner : ∀ p ∈ members, trim p = p ∧ p ≠ [] := by
    intro p member
    obtain ⟨chunk, -, part⟩ := List.mem_flatMap.1 member
    exact solid_split p part
  have keeps (t : Text) : (Nesting.split false [','] t).flatten.count '}' = t.count '}' :=
    count_split (by decide) (by decide) t
  exact ⟨⟨Constant.ambient_inline unit name flat flatRest, levels_of_parts solid_split,
      parts_throughLast keeps body rest⟩,
    Interface.ambient_inline unit name flat flatRest, levels_of_parts inner,
    parts_throughLast count_interfaceMembers body rest⟩

/-- A closing brace in a literal of the body does not end it. -/
theorem inline_body_with_literal :
    let name : Word := ⟨'a', [], by decide, by decide⟩
    let body := " b: '\x7d', c: \x7b d: 1 \x7d ".toList
    let rest := " as const; // checked".toList
    ('\n' ∉ body ∧ '\n' ∉ rest ∧ '}' ∉ rest) ∧
      (Constant.ambient "  ".toList (Constant.inline name body rest)).value =
        ("export declare const a: \x7b [key: string]: any \x7d \x7b\n  b: '\x7d';\n" ++
          "  c: \x7b d: 1 \x7d;\n\x7d;").toList ∧
      Nesting.split false [','] (throughLast body rest) = Nesting.split false [','] body ∧
      interfaceMembers (throughLast body rest) = interfaceMembers body := by
  intro name body rest
  have flat : '\n' ∉ body := by decide
  have flatRest : '\n' ∉ rest := by decide
  have free : '}' ∉ rest := by decide
  obtain ⟨⟨constant, -, values⟩, -, -, members⟩ := inline_body_read "  ".toList name flat flatRest
  exact ⟨⟨flat, flatRest, free⟩, constant.trans (by decide +kernel), values.2 free, members.2 free⟩

/-- A type behind the body, and a comment behind it, come into it. -/
theorem inline_body_overrun :
    let name : Word := ⟨'a', [], by decide, by decide⟩
    let body := " b: 1 ".toList
    let type := " satisfies \x7b b: number \x7d".toList
    let comment := " // \x7d".toList
    bracketBalance body = 0 ∧ Nesting.split false [','] body = ["b: 1".toList] ∧
      interfaceMembers body = ["b: 1".toList] ∧
      (Constant.ambient "  ".toList (Constant.inline name body type)).value =
        ("export declare const a: \x7b [key: string]: any \x7d \x7b\n" ++
          "  b: 1 \x7d satisfies \x7b b: number;\n\x7d;").toList ∧
      Interface.ambient "  ".toList (Interface.inline name body comment) =
        "export declare interface a \x7b\n  b: 1 \x7d //\n\x7d".toList := by
  decide +kernel

end Ambient
