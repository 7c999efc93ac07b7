import Ambient.Proofs.Expression
import Ambient.Proofs.Implementation
import Ambient.Proofs.Signature
import Mathlib.Algebra.Ring.Int.Defs
import Mathlib.Data.List.Infix

/-!
Parameters with a default value. The search for the body counts angle signs as brackets, also where
they compare: a value lets the body be found exactly when it leaves the depth as it is
(`default_concealed_iff`), which for a value that closes no more than it opens means that it has as
many opening as closing angle signs.
-/

namespace Ambient

open Lexer Phrase

namespace Nesting

/-! ### Searching through lexemes -/

/-- Where no body is found in a run of lexemes the search goes on behind it. -/
theorem bodyFrom_append {h : Header} {start : Nat} {ls : List Lexeme}
    (none : bodyFrom h (Lexeme.place start ls) = none) (ts : List Token) :
    bodyFrom h (Lexeme.place start ls ++ ts) = bodyFrom (through h ls) ts := by
  induction ls generalizing h start with
  | nil => rfl
  | cons l ls ih =>
    rw [Lexeme.place, bodyFrom] at none
    rw [Lexeme.place, List.cons_append, bodyFrom, through, List.foldl_cons]
    by_cases gap : l.kind.isGap = true
    · rw [if_pos gap] at none
      rw [if_pos gap, if_pos gap]
      exact ih none
    · rw [if_neg gap] at none
      rw [if_neg gap, if_neg gap]
      by_cases opens : h.bodyOpensAt ⟨start, l.kind, l.text⟩ = true
      · rw [if_pos opens] at none
        cases none
      · rw [if_neg opens] at none
        rw [if_neg opens]
        exact ih none

/-- A body is found before the end of the lexemes, and wherever they stand. -/
theorem bodyFrom_some {h : Header} {start n : Nat} {ls : List Lexeme}
    (found : bodyFrom h (Lexeme.place start ls) = some n) :
    ∃ m < (Lexeme.spell ls).length, ∀ start' ms,
      bodyFrom h (Lexeme.place start' (ls ++ ms)) = some (start' + m) := by
  obtain ⟨ks, ms, rfl, -, again⟩ := exists_of_bodyFrom found
  refine ⟨(Lexeme.spell ks).length, by simp [Lexeme.spell], fun start' us => ?_⟩
  rw [List.append_assoc, List.cons_append]
  exact again start' (ms ++ us)

/-- Where no body is found none is found wherever the lexemes stand. -/
theorem bodyFrom_none {h : Header} {start : Nat} {ls : List Lexeme}
    (none : bodyFrom h (Lexeme.place start ls) = none) (start' : Nat) :
    bodyFrom h (Lexeme.place start' ls) = .none := by
  cases found : bodyFrom h (Lexeme.place start' ls) with
  | none => rfl
  | some n =>
    obtain ⟨m, -, again⟩ := bodyFrom_some found
    have here := again start []
    rw [List.append_nil, none] at here
    cases here

/-! ### Angle signs -/

/-- What an angle sign adds to the depth where it closes or opens something. -/
def angle (l : Lexeme) : Int :=
  if l = ⟨.operator, ['<']⟩ then 1 else if l = ⟨.operator, ['>']⟩ then -1 else 0

/-- What a run of lexemes adds to the depth, brackets and angle signs together. -/
def nesting (ls : List Lexeme) : Int :=
  balanceOf Token.shift (Lexeme.place 0 ls) + (ls.map angle).sum

theorem balanceOf_shift_place (start start' : Nat) (ls : List Lexeme) :
    balanceOf Token.shift (Lexeme.place start ls) = balanceOf Token.shift (Lexeme.place start' ls) := by
  induction ls generalizing start start' with
  | nil => rfl
  | cons l ls ih => exact congrArg (Token.shift ⟨start, l.kind, l.text⟩ + ·) (ih _ _)

theorem nesting_cons (l : Lexeme) (ls : List Lexeme) :
    nesting (l :: ls) = Token.shift ⟨0, l.kind, l.text⟩ + angle l + nesting ls := by
  simp only [nesting, Lexeme.place, balanceOf, List.map_cons, List.sum_cons,
    balanceOf_shift_place (0 + l.text.length) 0 ls]
  omega

theorem nesting_gap {l : Lexeme} (gap : l.kind.isGap = true) (ls : List Lexeme) :
    nesting (l :: ls) = nesting ls := by
  have plain : l.kind ≠ .bracket ∧ l.kind ≠ .operator := by
    constructor <;> intro same <;> simp [same, TokenKind.isGap, TokenKind.isComment] at gap
  have noAngle : angle l = 0 := by
    rw [angle, if_neg (by rintro rfl; exact plain.2 rfl), if_neg (by rintro rfl; exact plain.2 rfl)]
  rw [nesting_cons, (Atom.shift_of_kind plain.1).1, noAngle]
  omega

/-- Inside brackets every angle sign counts. -/
theorem depthAfter_of_pos {depth : Int} (deep : 0 < depth) (l : Lexeme) :
    Token.depthAfter true depth ⟨0, l.kind, l.text⟩ =
      depth + (Token.shift ⟨0, l.kind, l.text⟩ + angle l) := by
  obtain ⟨kind, text⟩ := l
  by_cases operator : kind = .operator
  · subst operator
    have zero : Token.shift ⟨0, .operator, text⟩ = 0 := (Atom.shift_of_kind (by simp)).1
    by_cases less : text = ['<']
    · subst less
      rfl
    · by_cases greater : text = ['>']
      · subst greater
        simp [Token.depthAfter, Token.is, angle, deep, zero]
        omega
      · simp [Token.depthAfter, Token.is, angle, less, greater, zero]
  · simp [Token.depthAfter, Token.is, angle, operator]

/-- **A header that stays inside the brackets runs through**: it finds no body, and its depth is that
of the brackets and angle signs it has read. -/
theorem through_of_deep {h : Header} {ls : List Lexeme}
    (deep : ∀ ks, ks <+: ls → 0 < h.depth + nesting ks) (start : Nat) :
    bodyFrom h (Lexeme.place start ls) = none ∧
      (through h ls).depth = h.depth + nesting ls := by
  induction ls generalizing h start with
  | nil => exact ⟨rfl, (Int.add_zero _).symm⟩
  | cons l ls ih =>
    have here : 0 < h.depth := by simpa [nesting, Lexeme.place, balanceOf] using deep [] (by simp)
    have later (ks : List Lexeme) (front : ks <+: ls) := deep (l :: ks) (by simpa using front)
    rw [Lexeme.place, bodyFrom, through, List.foldl_cons]
    by_cases gap : l.kind.isGap = true
    · rw [if_pos gap, if_pos gap, nesting_gap gap]
      exact ih (fun ks front => by rw [← nesting_gap gap]; exact later ks front) _
    · have shut : h.bodyOpensAt ⟨start, l.kind, l.text⟩ ≠ true := by
        have nonzero : (h.depth == 0) = false := by
          rw [beq_eq_false_iff_ne]
          omega
        simp [Header.bodyOpensAt, nonzero]
      have depth : (h.advance ⟨start, l.kind, l.text⟩).depth =
          h.depth + (Token.shift ⟨0, l.kind, l.text⟩ + angle l) := depthAfter_of_pos here l
      rw [if_neg gap, if_neg gap, if_neg shut]
      obtain ⟨none, reached⟩ := ih (h := h.advance ⟨start, l.kind, l.text⟩) (fun ks front => by
        have total := later ks front
        rw [nesting_cons] at total
        omega) (start + l.text.length)
      refine ⟨none, reached.trans ?_⟩
      rw [nesting_cons]
      omega

end Nesting

open Nesting Atom

/-! ### What a value does to the search -/

namespace Expression

/-- The header behind the equals sign of a first parameter. -/
def inParameters : Header := ⟨1, false, ['=']⟩

/-- The search for the body finds nothing in the value and leaves it at the depth it came with. -/
def Contained (e : Expression) : Prop :=
  bodyFrom inParameters (tokens e.text) = none ∧
    (through inParameters (lex .code none e.text)).depth = inParameters.depth

/-- Opening angle signs less closing ones. -/
def angles (e : Expression) : Int := ((lex .code none e.text).map angle).sum

/-- No bracket or angle sign closes more than the value has opened. -/
def Level (e : Expression) : Prop := ∀ ks ∈ (lex .code none e.text).inits, 0 ≤ nesting ks

instance (e : Expression) : Decidable e.Level :=
  inferInstanceAs (Decidable (∀ ks ∈ (lex .code none e.text).inits, 0 ≤ nesting ks))

theorem contained_of_level {e : Expression} (level : e.Level) : e.Contained ↔ e.angles = 0 := by
  have deep : ∀ ks, ks <+: e.lexemes → 0 < inParameters.depth + nesting ks := by
    intro ks front
    rw [← e.lex_text] at front
    have bound := level ks ((List.mem_inits _ _).2 front)
    have one : inParameters.depth = 1 := rfl
    omega
  obtain ⟨none, reached⟩ := through_of_deep deep 0
  have total : nesting e.lexemes = e.angles := by
    rw [nesting, angles, e.lex_text, lexemes, e.paired]
    omega
  rw [Contained, tokens, e.lex_text, reached, total]
  refine ⟨fun contained => ?_, fun zero => ⟨none, ?_⟩⟩
  · have same := contained.2
    omega
  · omega

end Expression

/-! ### The function -/

/-- A function whose one parameter has a default value. -/
def withDefault (f a : Word) (value body : Text) : Text :=
  "export function ".toList ++ f.text ++ "(".toList ++ a.text ++ " = ".toList ++ value ++
    ") \x7b".toList ++ body ++ "\x7d".toList

/-- What it is declared as. -/
def declaredDefault (f a : Word) (value : Text) : Text :=
  "export declare function ".toList ++ f.text ++ "(".toList ++ a.text ++ " = ".toList ++ value ++
    ");".toList

/-- The words up to the value. -/
def opening (f a : Word) : List Atom :=
  [.word .exportWord, .gap .space, .word .functionWord, .gap .space, .word f, .bracket .openParen,
    .word a, .gap .space, .sign .assign]

theorem spell_opening (f a : Word) (r : Text) : spell (opening f a) ++ r =
    "export function ".toList ++ (f.text ++ ("(".toList ++ (a.text ++ (" =".toList ++ r)))) := by
  have same : spell (opening f a) =
      "export function ".toList ++ (f.text ++ ("(".toList ++ (a.text ++ " =".toList))) := by
    simp [opening]
    rfl
  simp only [same, List.append_assoc]

theorem withDefault_eq (f a : Word) (value body : Text) : withDefault f a value body =
    spell (opening f a) ++ ' ' :: (value ++ ')' :: ' ' :: '{' :: (body ++ ['}'])) := by
  have same : withDefault f a value body = "export function ".toList ++ f.text ++ "(".toList ++
    a.text ++ " = ".toList ++ value ++ ") \x7b".toList ++ body ++ "\x7d".toList := rfl
  rw [same, spell_opening]
  simp only [List.append_assoc]
  rfl

/-- Only a closing parenthesis closes the parameters. -/
theorem paramsClosed_through_of_open {h : Header} (unclosed : h.paramsClosed = false)
    {ls : List Lexeme} (other : ∀ l ∈ ls, l ≠ ⟨.bracket, [')']⟩) :
    (through h ls).paramsClosed = false := by
  induction ls generalizing h with
  | nil => exact unclosed
  | cons l ls ih =>
    rw [through, List.foldl_cons]
    refine ih ?_ fun m member => other m (List.mem_cons_of_mem l member)
    split
    · exact unclosed
    · have apart : (l.kind == .bracket && l.text == [')']) = false := by
        rw [Bool.and_eq_false_iff, beq_eq_false_iff_ne, beq_eq_false_iff_ne]
        by_contra! same
        exact other l List.mem_cons_self (by rw [← same.1, ← same.2])
      simp [Header.advance, Token.is, unclosed, apart]

theorem bodyFrom_opening (f a : Word) (ts : List Token) :
    bodyFrom .start (Lexeme.place 0 ((opening f a).flatMap lexemes) ++ ts) =
      bodyFrom Expression.inParameters ts := by
  obtain ⟨h₁, words, depth₁⟩ : ∃ h', Passes .start [.word .exportWord, .gap .space,
      .word .functionWord, .gap .space, .word f] h' ∧ h'.depth = Header.start.depth :=
    passes_level rfl .start
  obtain ⟨h₂, paren, depth₂⟩ := passes_bracket .openParen h₁
  obtain ⟨h₃, name, depth₃⟩ : ∃ h', Passes h₂ [.word a, .gap .space] h' ∧ h'.depth = h₂.depth :=
    passes_level rfl h₂
  obtain ⟨h₄, assign, depth₄, previous⟩ := passes_sign (s := .assign) (h := h₃) (by simp)
  have passes : Passes .start (opening f a) h₄ := ((words.append paren).append name).append assign
  have unclosed : h₄.paramsClosed = false := by
    have word (w : Word) : (⟨w.kind, w.text⟩ : Lexeme) ≠ ⟨.bracket, [')']⟩ := by
      intro same
      have kind := congrArg Lexeme.kind same
      rcases w.kind_eq with isWord | isWord <;> simp [isWord] at kind
    rw [passes.reached]
    refine paramsClosed_through_of_open rfl fun l member => ?_
    simp only [opening, lexemes, List.flatMap_cons, List.flatMap_nil, List.append_nil,
      List.singleton_append, List.mem_cons, List.not_mem_nil, or_false] at member
    rcases member with rfl | rfl | rfl | rfl | rfl | rfl | rfl | rfl | rfl <;>
      first | exact word _ | simp [Bracket.char]
  have depth : h₄.depth = 1 := by
    simp only [shift, angleShift] at depth₂ depth₄
    have zero : Header.start.depth = 0 := rfl
    omega
  rw [passes.run]
  obtain ⟨d, c, t⟩ := h₄
  obtain rfl : d = 1 := depth
  obtain rfl : c = false := unclosed
  obtain rfl : t = ['='] := previous
  rfl

namespace Expression

/-- A value starts with a character that is neither a blank nor a sign. -/
theorem head_class (e : Expression) (r : Text) :
    ∃ c, (e.text ++ ')' :: r).head? = some c ∧ isBlank c = false ∧ c ∉ signChars := by
  obtain ⟨parts, sound, start, paired⟩ := e
  cases parts with
  | nil => exact ⟨')', rfl, by decide, by decide⟩
  | cons p ps =>
    obtain ⟨gap, unsigned⟩ := start p rfl
    obtain ⟨c, first, solid, -, noSign⟩ := p.part.first_class
    refine ⟨c, ?_, solid, noSign unsigned⟩
    simp only [text, Placed.spell, List.flatMap_cons, Placed.text, gap, List.nil_append,
      List.append_assoc]
    rw [List.head?_append, first]
    rfl

/-- The lexemes of a function with a default value, up to the brace of its body. -/
theorem exists_lex_withDefault (f a : Word) (e : Expression) (body : Text) : ∃ ls,
    lex .code none (withDefault f a e.text body) = (opening f a).flatMap Atom.lexemes ++
      ⟨.blank, [' ']⟩ :: (e.lexemes ++
        ⟨.bracket, [')']⟩ :: ⟨.blank, [' ']⟩ :: ⟨.bracket, ['{']⟩ :: ls) := by
  obtain ⟨c, head, solid, unsigned⟩ := e.head_class (' ' :: '{' :: (body ++ ['}']))
  obtain ⟨ls, brace⟩ := exists_lex_brace none (body ++ ['}'])
  have start := trimLeft_of_head head solid
  have clear : Clear (' ' :: (e.text ++ ')' :: ' ' :: '{' :: (body ++ ['}']))) := by
    refine (clear_of_blank (by decide)).2 ?_
    rw [start, head]
    intro slash
    exact unsigned (Option.some.inj slash ▸ by decide)
  have meets : ∀ x ∈ (opening f a).getLast?,
      Meets x (' ' :: (e.text ++ ')' :: ' ' :: '{' :: (body ++ ['}']))) := by
    intro x last d first
    obtain rfl : Atom.sign .assign = x := Option.some.inj last
    exact ⟨.gap .space, rfl, (Option.some.inj first).symm⟩
  obtain ⟨last, read⟩ := lex_spell_append clear (sound_of_isSound rfl) meets
  have value : lex .code last (' ' :: (e.text ++ ')' :: ' ' :: '{' :: (body ++ ['}']))) =
      ⟨.blank, [' ']⟩ :: lex .code none (e.text ++ ')' :: ' ' :: '{' :: (body ++ ['}'])) := by
    have stop : ∀ d ∈ (e.text ++ ')' :: ' ' :: '{' :: (body ++ ['}'])).head?, isBlank d = false := by
      intro d first
      rw [head] at first
      exact Option.some.inj first ▸ solid
    obtain ⟨taken, left⟩ := span_of_stop (w := []) nofun stop
    rw [List.nil_append] at taken left
    rw [lex_blanks (by decide), taken, left]
  have paren : lex .code none (')' :: ' ' :: '{' :: (body ++ ['}'])) =
      ⟨.bracket, [')']⟩ :: ⟨.blank, [' ']⟩ :: ⟨.bracket, ['{']⟩ :: ls := by
    have close : step .code none ')' (' ' :: '{' :: (body ++ ['}'])) =
        .single .bracket .code ([')'], ' ' :: '{' :: (body ++ ['}'])) :=
      step_bracket (by decide) (quiet_of_foreign (by decide) _)
    rw [lex_of_step close, lex_blanks (by decide), ← brace]
    rfl
  exact ⟨ls, by rw [withDefault_eq, read, value, e.lex_append, paren]⟩

end Expression

/-- Behind the value the parameters close: the body is found exactly at depth one. -/
theorem bodyFrom_closing (h : Header) (start : Nat) (ls : List Lexeme) :
    bodyFrom h (Lexeme.place start
        (⟨.bracket, [')']⟩ :: ⟨.blank, [' ']⟩ :: ⟨.bracket, ['{']⟩ :: ls)) =
      if h.depth = 1 then some (start + 2)
      else bodyFrom ⟨h.depth, h.paramsClosed, ['{']⟩ (Lexeme.place (start + 3) ls) := by
  have paren : h.advance ⟨start, .bracket, [')']⟩ =
      ⟨h.depth + -1, h.paramsClosed || h.depth + -1 == 0, [')']⟩ := by
    simp [Header.advance, Token.depthAfter, Token.is, Token.shift, Token.isOpener, Token.isCloser,
      openers, closers]
  have brace (u : Header) : u.advance ⟨start + 2, .bracket, ['{']⟩ =
      ⟨u.depth + 1, u.paramsClosed, ['{']⟩ := by
    simp [Header.advance, Token.depthAfter, Token.is, Token.shift, Token.isOpener, openers]
  have notYet : h.bodyOpensAt ⟨start, .bracket, [')']⟩ = false := by
    simp [Header.bodyOpensAt, Token.is]
  have typed : [')'] ∉ typePositions := by decide
  have first : bodyFrom h (Lexeme.place start
      (⟨.bracket, [')']⟩ :: ⟨.blank, [' ']⟩ :: ⟨.bracket, ['{']⟩ :: ls)) =
      bodyFrom ⟨h.depth + -1, h.paramsClosed || h.depth + -1 == 0, [')']⟩
        (Lexeme.place (start + 2) (⟨.bracket, ['{']⟩ :: ls)) := by
    rw [← paren]
    simp only [Lexeme.place]
    rw [bodyFrom, if_neg (by simp [TokenKind.isGap, TokenKind.isComment]), notYet,
      if_neg (by decide), bodyFrom, if_pos (by rfl)]
    rfl
  rw [first, Lexeme.place, bodyFrom, if_neg (by simp [TokenKind.isGap, TokenKind.isComment])]
  by_cases one : h.depth = 1
  · have opens : Header.bodyOpensAt ⟨h.depth + -1, h.paramsClosed || h.depth + -1 == 0, [')']⟩
        ⟨start + 2, .bracket, ['{']⟩ = true := by
      simp [Header.bodyOpensAt, Token.is, one, typed]
    rw [if_pos opens, if_pos one]
  · have other : (h.depth + -1 == 0) = false := by
      rw [beq_eq_false_iff_ne]
      omega
    have shut : Header.bodyOpensAt ⟨h.depth + -1, h.paramsClosed || h.depth + -1 == 0, [')']⟩
        ⟨start + 2, .bracket, ['{']⟩ ≠ true := by
      simp [Header.bodyOpensAt, other]
    have depth : h.depth + -1 + 1 = h.depth := by omega
    rw [if_neg shut, if_neg one, brace]
    simp only [other, depth, Bool.or_false]
    rfl

/-- The search for the body runs through the value, and then through what closes the parameters. -/
theorem Expression.exists_bodyBrace?_withDefault (e : Expression) (f a : Word) (body : Text) :
    ∃ ls, bodyBrace? (withDefault f a e.text body) =
      bodyFrom inParameters (Lexeme.place ((spell (opening f a)).length + 1) (e.lexemes ++
        ⟨.bracket, [')']⟩ :: ⟨.blank, [' ']⟩ :: ⟨.bracket, ['{']⟩ :: ls)) := by
  obtain ⟨ls, lexed⟩ := e.exists_lex_withDefault f a body
  have front : (Lexeme.spell ((opening f a).flatMap Atom.lexemes)).length =
      (spell (opening f a)).length := by rw [← spell_eq]
  refine ⟨ls, ?_⟩
  rw [bodyBrace?, tokens, lexed, Lexeme.place_append, bodyFrom_opening, front, Nat.zero_add,
    Lexeme.place, bodyFrom, if_pos (by rfl)]
  rfl

theorem length_withDefault (f a : Word) (value body : Text) :
    (withDefault f a value body).length =
      (spell (opening f a)).length + (value.length + 4 + (body.length + 1)) := by
  rw [withDefault_eq, List.length_append]
  simp only [List.length_cons, List.length_append, List.length_nil]
  omega

/-- A value without a brace of the body in it is contained where the parameters stay open. -/
theorem Expression.contained_iff_depth (e : Expression)
    (found : bodyFrom inParameters (tokens e.text) = none) :
    e.Contained ↔ (through inParameters e.lexemes).depth = 1 := by
  rw [Contained, tokens, e.lex_text]
  rw [tokens, e.lex_text] at found
  exact and_iff_right found

/-- **Where the signature is cut**, counted from the equals sign: behind the parenthesis when the
value is contained, else within the value or somewhere behind the brace. -/
theorem exists_cut (f a : Word) (e : Expression) (body : Text) : ∃ cut,
    (bodyBrace? (withDefault f a e.text body)).getD (withDefault f a e.text body).length =
      (spell (opening f a)).length + cut ∧
    (e.Contained → cut = e.text.length + 3) ∧
    (¬ e.Contained → cut < e.text.length + 2 ∨ e.text.length + 4 ≤ cut) := by
  obtain ⟨ls, search⟩ := e.exists_bodyBrace?_withDefault f a body
  have value : (Lexeme.spell e.lexemes).length = e.text.length := by rw [← e.lex_text, spell_lex]
  have length := length_withDefault f a e.text body
  generalize (spell (opening f a)).length = n at search length ⊢
  cases found : bodyFrom Expression.inParameters (tokens e.text) with
  | some k =>
    rw [tokens, e.lex_text] at found
    obtain ⟨m, inside, again⟩ := bodyFrom_some found
    refine ⟨1 + m, ?_, fun contained => ?_, fun _ => .inl (by omega)⟩
    · rw [search, again, Option.getD_some]
      omega
    · rw [Expression.Contained, tokens, e.lex_text, found] at contained
      cases contained.1
  | none =>
    have contained := e.contained_iff_depth found
    rw [tokens, e.lex_text] at found
    rw [Lexeme.place_append, bodyFrom_append (bodyFrom_none found _), bodyFrom_closing, value] at search
    by_cases one : (through Expression.inParameters e.lexemes).depth = 1
    · rw [if_pos one] at search
      refine ⟨e.text.length + 3, ?_, fun _ => rfl, fun other => absurd (contained.2 one) other⟩
      rw [search, Option.getD_some]
      omega
    · rw [if_neg one] at search
      have other : ¬ e.Contained := fun inside => one (contained.1 inside)
      cases later : bodyBrace? (withDefault f a e.text body) with
      | none => exact ⟨e.text.length + 4 + (body.length + 1), length, fun inside => absurd inside other,
          fun _ => .inr (by omega)⟩
      | some k =>
        rw [later] at search
        obtain ⟨m, -, again⟩ := bodyFrom_some search.symm
        have here := again (n + 1 + e.text.length + 3) []
        rw [List.append_nil, ← search] at here
        obtain rfl := Option.some.inj here
        exact ⟨e.text.length + 4 + m, by rw [Option.getD_some]; omega, fun inside => absurd inside other,
          fun _ => .inr (by omega)⟩

/-- What the end of a signature loses: blanks, semicolons and the blanks before them. -/
def unended (t : Text) : Text := trimRight (trimRightBy (· == ';') (trimRight t))

theorem unended_append {t : Text} {c : Char} (last : t.getLast? = some c) (solid : isBlank c = false)
    (other : c ≠ ';') (r : Text) : unended (t ++ r) = t ++ unended r := by
  rw [unended, trimRight_append_of_getLast last solid,
    trimRightBy_append_of_getLast last (by simpa using other),
    trimRight_append_of_getLast last solid, ← unended]

theorem length_unended_le (t : Text) : (unended t).length ≤ t.length := by
  have shorter (p : Char → Bool) (u : Text) : (trimRightBy p u).length ≤ u.length := by
    obtain ⟨w, -, split⟩ := exists_trimRightBy_append p u
    have count := congrArg List.length split
    rw [List.length_append] at count
    omega
  exact (shorter isBlank _).trans ((shorter _ _).trans (shorter isBlank t))

theorem signature_withDefault (f a : Word) (value body : Text) {cut : Nat}
    (found : (bodyBrace? (withDefault f a value body)).getD (withDefault f a value body).length =
      (spell (opening f a)).length + cut) :
    Function.signature (trim (withDefault f a value body)) = spell (opening f a) ++
      unended ((' ' :: (value ++ ')' :: ' ' :: '{' :: (body ++ ['}']))).take cut) := by
  have head (r : Text) : (spell (opening f a) ++ r).head? = some 'e' := rfl
  have last : (spell (opening f a)).getLast? = some '=' := spell_last (opening f a).dropLast (.sign .assign)
  have closes : (withDefault f a value body).getLast? = some '}' := by
    have same : withDefault f a value body = "export function ".toList ++ f.text ++ "(".toList ++
      a.text ++ " = ".toList ++ value ++ ") \x7b".toList ++ body ++ ['}'] := rfl
    rw [same]
    exact List.getLast?_concat
  have trimmed : trim (withDefault f a value body) = withDefault f a value body :=
    trim_of_ends (c := 'e') (by rw [withDefault_eq]; exact head _) closes (by decide) (by decide)
  rw [trimmed, Function.signature, found, withDefault_eq, List.take_length_add_append, trim,
    trimLeft_of_head (head _) (by decide)]
  exact unended_append last (by decide) (by decide) _

theorem ambient_of_signature (f a : Word) {t r : Text}
    (signed : Function.signature (trim t) = spell (opening f a) ++ r) :
    Function.ambient t = "export declare function ".toList ++
      (f.text ++ ("(".toList ++ (a.text ++ (" =".toList ++ (r ++ [';']))))) := by
  rw [spell_opening] at signed
  generalize behind : "(".toList ++ (a.text ++ (" =".toList ++ r)) = u at signed
  have words : Function.withoutModifiers ("export function ".toList ++ (f.text ++ u)) =
      "function".toList ++ (' ' :: (f.text ++ u)) := rfl
  have unstarred : after? ['*'] (trimLeft (' ' :: (f.text ++ u))) = none :=
    Canonical.after?_of_word (by decide) f u
  have kept : Function.withoutStar ("function".toList ++ (' ' :: (f.text ++ u))) =
      "function".toList ++ (' ' :: (f.text ++ u)) := by
    rw [Function.withoutStar, after?_append, Option.bind_some, unstarred]
  have written : Function.ambient t = "export declare ".toList ++
      Function.withoutStar (Function.withoutModifiers (Function.signature (trim t))) ++ [';'] := rfl
  have joined : "export declare function ".toList =
      "export declare ".toList ++ ("function".toList ++ [' ']) := by decide
  rw [written, signed, words, kept, ← behind, joined]
  simp only [List.append_assoc, List.cons_append, List.nil_append]

/-- What is left of the value tells where the signature was cut. -/
theorem unended_take_iff (value rest : Text) {cut : Nat}
    (place : cut = value.length + 3 ∨ cut < value.length + 2 ∨ value.length + 4 ≤ cut) :
    unended ((' ' :: (value ++ ')' :: ' ' :: '{' :: rest)).take cut) = ' ' :: value ++ [')'] ↔
      cut = value.length + 3 := by
  have split : ' ' :: (value ++ ')' :: ' ' :: '{' :: rest) =
      (' ' :: value ++ [')']) ++ ' ' :: '{' :: rest := by simp
  have size : (' ' :: value ++ [')']).length = value.length + 2 := by simp
  have last : (' ' :: value ++ [')']).getLast? = some ')' := List.getLast?_concat
  rw [split]
  generalize ' ' :: value ++ [')'] = closed at size last
  constructor
  · intro same
    rcases place with here | before | after
    · exact here
    · have short := length_unended_le ((closed ++ ' ' :: '{' :: rest).take cut)
      rw [same, size, List.length_take] at short
      omega
    · obtain ⟨more, rfl⟩ := Nat.exists_eq_add_of_le after
      have taken : (closed ++ ' ' :: '{' :: rest).take (value.length + 4 + more) =
          closed ++ [' '] ++ ['{'] ++ rest.take more := by
        rw [show value.length + 4 + more = closed.length + (more + 2) by omega,
          List.take_length_add_append]
        simp
      have brace : (closed ++ [' '] ++ ['{']).getLast? = some '{' := List.getLast?_concat
      rw [taken, unended_append brace (by decide) (by decide)] at same
      have count := congrArg List.length same
      simp only [List.length_append, List.length_cons, List.length_nil] at count
      omega
  · rintro rfl
    have taken : (closed ++ ' ' :: '{' :: rest).take (value.length + 3) = closed ++ [' '] := by
      rw [show value.length + 3 = closed.length + 1 by omega, List.take_length_add_append]
      rfl
    rw [taken, unended_append last (by decide) (by decide)]
    exact List.append_nil _

/-- **The body of a function with a default value does not leak exactly when the value is
contained.** A value that closes no more than it opens is contained exactly when it has as many
opening as closing angle signs. -/
theorem default_concealed_iff (f a : Word) (e : Expression) (body : Text) :
    (Function.ambient (withDefault f a e.text body) = declaredDefault f a e.text ↔ e.Contained) ∧
      (e.Level → (e.Contained ↔ e.angles = 0)) := by
  refine ⟨?_, Expression.contained_of_level⟩
  obtain ⟨cut, found, inside, outside⟩ := exists_cut f a e body
  have declared : declaredDefault f a e.text = "export declare function ".toList ++
      (f.text ++ ("(".toList ++ (a.text ++ (" =".toList ++ (' ' :: e.text ++ [')'] ++ [';']))))) := by
    have same : declaredDefault f a e.text = "export declare function ".toList ++ f.text ++
      "(".toList ++ a.text ++ " = ".toList ++ e.text ++ ");".toList := rfl
    rw [same]
    simp only [List.append_assoc]
    rfl
  have place : cut = e.text.length + 3 ∨ cut < e.text.length + 2 ∨ e.text.length + 4 ≤ cut :=
    (em e.Contained).imp inside outside
  rw [ambient_of_signature f a (signature_withDefault f a e.text body found), declared]
  simp only [List.append_cancel_left_eq, List.append_cancel_right_eq]
  rw [unended_take_iff e.text _ place]
  refine ⟨fun here => ?_, inside⟩
  by_contra other
  have := outside other
  omega

/-- Shifts to both sides: as many signs close as open. -/
theorem shifts_concealed :
    let f : Word := ⟨'f', [], by decide, by decide⟩
    let a : Word := ⟨'a', [], by decide, by decide⟩
    let e : Expression :=
      ⟨[⟨[], by decide, .number false '1' [] (by decide) (by decide)⟩,
        ⟨[' '], by decide, .sign "<<".toList (by decide)⟩,
        ⟨[' '], by decide, .number false '8' [] (by decide) (by decide)⟩,
        ⟨[' '], by decide, .sign ">>".toList (by decide)⟩,
        ⟨[' '], by decide, .name a (by decide)⟩], by decide, by decide, by decide⟩
    let body : Text := " return \"(\" ".toList
    withDefault f a e.text body = "export function f(a = 1 << 8 >> a) \x7b return \"(\" \x7d".toList ∧
      e.Level ∧ e.angles = 0 ∧
      Function.ambient (withDefault f a e.text body) = declaredDefault f a e.text := by
  intro f a e body
  have level : e.Level := by decide +kernel
  have even : e.angles = 0 := by decide +kernel
  obtain ⟨concealed, contained⟩ := default_concealed_iff f a e body
  exact ⟨by decide, level, even, concealed.2 ((contained level).2 even)⟩

/-- A comparison in the value opens a bracket that nothing closes, and the body is kept. -/
theorem comparison_leaks_body :
    let f : Word := ⟨'f', [], by decide, by decide⟩
    let a : Word := ⟨'a', [], by decide, by decide⟩
    let x : Word := ⟨'x', [], by decide, by decide⟩
    let y : Word := ⟨'y', [], by decide, by decide⟩
    let e : Expression :=
      ⟨[⟨[], by decide, .name x (by decide)⟩, ⟨[' '], by decide, .sign ['<'] (by decide)⟩,
        ⟨[' '], by decide, .name y (by decide)⟩], by decide, by decide, by decide⟩
    withDefault f a e.text [] = "export function f(a = x < y) \x7b\x7d".toList ∧
      bracketBalance [] = 0 ∧
      Function.ambient (withDefault f a e.text []) =
        "export declare function f(a = x < y) \x7b\x7d;".toList ∧
      Function.ambient (withDefault f a e.text []) ≠ declaredDefault f a e.text := by
  intro f a x y e
  have kept : Function.ambient (withDefault f a e.text []) =
      "export declare function f(a = x < y) \x7b\x7d;".toList := by decide +kernel
  refine ⟨by decide, by decide +kernel, kept, ?_⟩
  rw [kept]
  decide

end Ambient
