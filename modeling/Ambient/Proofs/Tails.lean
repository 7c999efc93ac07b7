import Ambient.Proofs.Marks
import Ambient.Proofs.Remark

/-!
What a step of the lexer reads of a text does not depend on the tail behind the text, unless its
lexeme runs on into the tail. This holds of the tails that stand *apart*: they open with a blank, a
separator or a brace, and close no literal that the text leaves open (`step_alike`).
-/

namespace Ambient

open Lexer

/-! ### Signs at which words end -/

/-- Blanks and the signs that end a member. -/
def isNeutral (c : Char) : Bool := isBlank c || [',', ';'].contains c

/-- The neutral signs, and the brace that opens a body. -/
def isBreak (c : Char) : Bool := isNeutral c || c == '{'

theorem isBreak_of_isNeutral {c : Char} (h : isNeutral c = true) : isBreak c = true := by
  rw [isBreak, h, Bool.true_or]

theorem isBreak_of_class {p : Char → Bool} (blank : ∀ c, p c = true → isBlank c = false)
    (signs : p ',' = false ∧ p ';' = false ∧ p '{' = false) {c : Char} (h : isBreak c = true) :
    p c = false := by
  cases inside : p c with
  | false => rfl
  | true =>
    simp only [isBreak, isNeutral, blank c inside, Bool.false_or, List.contains_eq_mem,
      List.mem_cons, List.not_mem_nil, or_false, Bool.or_eq_true, decide_eq_true_eq,
      beq_iff_eq] at h
    obtain ⟨comma, semicolon, brace⟩ := signs
    rcases h with (rfl | rfl) | rfl
    · exact inside.symm.trans comma
    · exact inside.symm.trans semicolon
    · exact inside.symm.trans brace

theorem isNameChar_of_isBreak {c : Char} (h : isBreak c = true) : isNameChar c = false :=
  isBreak_of_class (fun _ => isBlank_of_isNameChar) (by decide) h

theorem isAlpha_of_isBreak {c : Char} (h : isBreak c = true) : c.isAlpha = false := by
  refine isBreak_of_class (p := Char.isAlpha) (fun d letter => ?_) (by decide) h
  exact isBlank_of_isNameStart (by simp [isNameStart, letter])

theorem inNumber_of_isBreak {c : Char} (h : isBreak c = true) : (isWord c || c == '.') = false := by
  refine isBreak_of_class (p := fun d => isWord d || d == '.') (fun d inside => ?_) (by decide) h
  rcases Bool.or_eq_true_iff.1 inside with word | point
  · exact isBlank_of_isNameChar (by simp [isNameChar, word])
  · obtain rfl : d = '.' := by simpa using point
    decide

theorem isNameChar_of_isNeutral {c : Char} (h : isNeutral c = true) : isNameChar c = false :=
  isNameChar_of_isBreak (isBreak_of_isNeutral h)

theorem isAlpha_of_isNeutral {c : Char} (h : isNeutral c = true) : c.isAlpha = false :=
  isAlpha_of_isBreak (isBreak_of_isNeutral h)

theorem ne_of_class {p : Char → Bool} {c d : Char} (h : p c = true) (other : p d = false) :
    c ≠ d := by
  rintro rfl
  rw [h] at other
  cases other

theorem ne_of_isNeutral {c d : Char} (h : isNeutral c = true) (other : isNeutral d = false) :
    c ≠ d := ne_of_class h other

/-! ### Tails that stand apart -/

/-- A tail that ends every word before it and closes no literal that the text leaves open. The tail
less its first character counts as well: a backslash at the end of the text takes that character. -/
structure Apart (w : Text) : Prop where
  head : ∀ c ∈ w.head?, isBreak c = true
  quoted : ∀ q, isBreak q = false → quotedTail? q w = none ∧ quotedTail? q w.tail = none
  regex : ∀ inClass, regexTail? inClass w = none ∧ regexTail? inClass w.tail = none
  noSlash : (trimLeft w).head? ≠ some '/'

theorem Apart.nil : Apart [] :=
  ⟨by simp, fun _ _ => ⟨rfl, rfl⟩, fun _ => ⟨rfl, rfl⟩, by simp [trimLeft]⟩

theorem Apart.cons {w : Text} (apart : Apart w) {c : Char} (neutral : isNeutral c = true) :
    Apart (c :: w) := by
  have breaks := isBreak_of_isNeutral neutral
  have slash := ne_of_isNeutral (d := '/') neutral (by decide)
  have backslash := ne_of_isNeutral (d := '\\') neutral (by decide)
  refine ⟨by simpa using breaks, fun q quote => ⟨?_, (apart.quoted q quote).1⟩,
    fun inClass => ⟨?_, (apart.regex inClass).1⟩, ?_⟩
  · have other : c ≠ q := ne_of_class breaks quote
    rw [quotedTail?.eq_def]
    simp [other, backslash, (apart.quoted q quote).1]
  · rw [regexTail?.eq_def]
    simp [slash, backslash, (apart.regex _).1]
  · by_cases blank : isBlank c = true
    · rw [trimLeft, List.dropWhile_cons_of_pos blank]
      exact apart.noSlash
    · rw [trimLeft, List.dropWhile_cons_of_neg blank]
      simpa using slash

theorem apart_of_neutral {w : Text} (neutral : ∀ c ∈ w, isNeutral c = true) : Apart w := by
  induction w with
  | nil => exact .nil
  | cons c w ih =>
    exact (ih fun d member => neutral d (List.mem_cons_of_mem c member)).cons
      (neutral c List.mem_cons_self)

/-- A text that stands behind a brace that ends its line, or nothing. -/
def NextLine (b : Text) : Prop := b = [] ∨ b.head? = some '\n'

/-- No literal goes on over the end of a line. -/
theorem apart_brace {b : Text} (h : NextLine b) : Apart ('{' :: b) := by
  have feed : b = [] ∨ ∃ r, b = '\n' :: r := by
    cases b with
    | nil => exact .inl rfl
    | cons c r => exact .inr ⟨r, by simpa [NextLine] using h⟩
  refine ⟨by simp [isBreak], fun q quote => ?_, fun inClass => ?_, ?_⟩
  · have other : ∀ c, isBreak c = true → c ≠ q := fun c breaks => ne_of_class breaks quote
    have brace := other '{' (by decide)
    have newline := other '\n' (by decide)
    rcases feed with rfl | ⟨r, rfl⟩ <;> simp [quotedTail?.eq_def, brace, newline]
  · rcases feed with rfl | ⟨r, rfl⟩ <;> cases inClass <;> simp [regexTail?.eq_def]
  · rw [trimLeft, List.dropWhile_cons_of_neg (by decide)]
    simp

/-! ### What is read from the text alone -/

/-- A run either takes all of the text, and may run on, or stops before its end. -/
theorem span_append_cases (p : Char → Bool) (t w : Text) :
    ((∀ d ∈ t, p d = true) ∧ t.takeWhile p = t ∧ t.dropWhile p = [] ∧
      (t ++ w).takeWhile p = t ++ w.takeWhile p ∧ (t ++ w).dropWhile p = w.dropWhile p) ∨
    (t.dropWhile p ≠ [] ∧ (t ++ w).takeWhile p = t.takeWhile p ∧
      (t ++ w).dropWhile p = t.dropWhile p ++ w) := by
  by_cases all : ∀ d ∈ t, p d = true
  · have alone : (t ++ []).takeWhile p = t ∧ (t ++ []).dropWhile p = [] :=
      span_of_stop all (by simp)
    rw [List.append_nil] at alone
    exact .inl ⟨all, alone.1, alone.2, List.takeWhile_append_of_pos all,
      List.dropWhile_append_of_pos all⟩
  · obtain ⟨d, member, outside⟩ : ∃ d ∈ t, p d = false := by simpa using all
    obtain ⟨front, rest, rfl⟩ := List.append_of_mem member
    have short := takeWhile_append_stop outside front rest
    have long := takeWhile_append_stop outside front (rest ++ w)
    refine .inr ⟨by simp [short.2], ?_, ?_⟩
    · rw [short.1, List.append_assoc]
      exact long.1
    · rw [short.2, List.append_assoc, List.append_assoc]
      exact long.2

/-- What an open block comment takes of the text behind it. -/
theorem blockTail_append_open {t w : Text} (free : ¬ ['*', '/'] <:+: t)
    (noSlash : w.head? ≠ some '/') : blockTail (t ++ w) = onto t (blockTail w) := by
  induction t with
  | nil => rfl
  | cons c t ih =>
    have later := ih fun inside => free (inside.trans (List.suffix_cons c t).isInfix)
    have goesOn : ¬(c = '*' ∧ (t ++ w).head? = some '/') := by
      rintro ⟨rfl, head⟩
      cases t with
      | nil => exact noSlash head
      | cons d t =>
        obtain rfl : d = '/' := by simpa using head
        exact free ⟨[], t, rfl⟩
    rw [List.cons_append, blockTail, if_neg goesOn, later]
    simp [onto]

theorem blockTail_ne_nil {t : Text} (h : t ≠ []) : (blockTail t).1 ≠ [] := by
  obtain ⟨c, r, rfl⟩ := List.exists_cons_of_ne_nil h
  rw [blockTail]
  split <;> simp [onto]

section
variable {w : Text} (stops : ∀ c ∈ w.head?, isBreak c = true)
include stops

theorem span_append_of_break {p : Char → Bool} (outside : ∀ c, isBreak c = true → p c = false)
    (t : Text) : (t ++ w).takeWhile p = t.takeWhile p ∧
      (t ++ w).dropWhile p = t.dropWhile p ++ w := by
  cases w with
  | nil => simp
  | cons d w => exact takeWhile_append_stop (outside d (stops d rfl)) t w

theorem after?_append_of_break {mark : Text} (free : ∀ d ∈ mark, isBreak d = false) (t : Text) :
    after? mark (t ++ w) = (after? mark t).map (· ++ w) := by
  induction mark generalizing t with
  | nil => rfl
  | cons m ms ih =>
    have later := ih fun d member => free d (List.mem_cons_of_mem m member)
    cases t with
    | nil =>
      cases w with
      | nil => rfl
      | cons d w =>
        have other : m ≠ d := (ne_of_class (stops d rfl) (free m List.mem_cons_self)).symm
        simp [after?, other]
    | cons c t =>
      by_cases same : m = c
      · simp [after?, same, later t]
      · simp [after?, same]

/-- A mark whose characters after the first are no breaks is read from the text alone. -/
theorem after?_cons_of_break {mark : Text} (nonempty : mark ≠ [])
    (free : ∀ d ∈ mark.tail, isBreak d = false) {c : Char} {r : Text} :
    after? mark (c :: (r ++ w)) = (after? mark (c :: r)).map (· ++ w) := by
  obtain ⟨m, ms, rfl⟩ := List.exists_cons_of_ne_nil nonempty
  have later := after?_append_of_break stops free r
  by_cases same : m = c
  · simpa [Lexer.after?_cons, same] using later
  · simp [Lexer.after?_cons, same]

end

section
variable {w : Text} (apart : Apart w) {c : Char} {r : Text}
include apart

theorem Apart.head?_ne {d : Char} (solid : isBreak d = false) : w.head? ≠ some d :=
  fun found => ne_of_class (apart.head d found) solid rfl

theorem Apart.head?_append_iff {d : Char} (solid : isBreak d = false) (t : Text) :
    (t ++ w).head? = some d ↔ t.head? = some d := by
  cases t with
  | nil => simpa using apart.head?_ne solid
  | cons => simp

theorem Apart.span_append {p : Char → Bool} (outside : ∀ c, isBreak c = true → p c = false)
    (t : Text) : (t ++ w).takeWhile p = t.takeWhile p ∧
      (t ++ w).dropWhile p = t.dropWhile p ++ w := span_append_of_break apart.head outside t

theorem Apart.after?_cons {mark : Text} (nonempty : mark ≠ [])
    (free : ∀ d ∈ mark.tail, isBreak d = false) :
    after? mark (c :: (r ++ w)) = (after? mark (c :: r)).map (· ++ w) :=
  after?_cons_of_break apart.head nonempty free

theorem Apart.quotedTail?_append {q : Char} (quote : isBreak q = false) (t : Text) :
    quotedTail? q (t ++ w) = (quotedTail? q t).map fun cut => (cut.1, cut.2 ++ w) := by
  fun_induction quotedTail? q t with
  | case1 => exact (apart.quoted q quote).1
  | case2 => simp [quotedTail?_quote]
  | case3 other =>
    cases w with
    | nil => simp [quotedTail?, other]
    | cons d w => simpa [quotedTail?, other] using (apart.quoted q quote).2
  | case4 d r other ih => simp [quotedTail?, other, ih, Function.comp_def, onto]
  | case5 r other => simp [quotedTail?.eq_def q ('\n' :: (r ++ w)), other]
  | case6 c r other backslash feed ih =>
    rw [List.cons_append, quotedTail?_plain other backslash feed, ih]
    simp [Function.comp_def, onto]

theorem Apart.regexTail?_append (inClass : Bool) (t : Text) :
    regexTail? inClass (t ++ w) = (regexTail? inClass t).map fun cut => (cut.1, cut.2 ++ w) := by
  fun_induction regexTail? inClass t with
  | case1 inClass => exact (apart.regex inClass).1
  | case2 inClass r => simp [regexTail?.eq_def inClass ('\n' :: (r ++ w))]
  | case3 inClass =>
    cases w with
    | nil => simp [regexTail?]
    | cons d w =>
      have later : regexTail? inClass w = none := (apart.regex inClass).2
      simp [regexTail?, later]
  | case4 inClass r => simp [regexTail?]
  | case5 inClass d r feed _ ih => simp [regexTail?, feed, ih, Function.comp_def, onto]
  | case6 c r feed backslash ih =>
    rw [List.cons_append, regexTail?_inClass backslash feed, ih]
    simp [Function.comp_def, onto]
  | case7 inClass r outside =>
    obtain rfl : inClass = false := by simpa using outside
    simp [regexTail?_slash]
  | case8 inClass c r feed backslash outside slash ih =>
    obtain rfl : inClass = false := by simpa using outside
    rw [List.cons_append, regexTail?_plain slash backslash feed, ih]
    simp [Function.comp_def, onto]

theorem Apart.regex?_append {t : Text} (nonempty : t ≠ []) :
    regex? (t ++ w) = (regex? t).map fun cut => (cut.1, cut.2 ++ w) := by
  obtain ⟨c, r, rfl⟩ := List.exists_cons_of_ne_nil nonempty
  by_cases slash : c = '/'
  · subst slash
    have flags := apart.span_append (p := Char.isAlpha) fun _ => isAlpha_of_isBreak
    simp only [List.cons_append, regex?, apart.head?_append_iff (d := '*') (by decide),
      apart.head?_append_iff (d := '/') (by decide), apart.regexTail?_append]
    split
    · rfl
    · simp [Function.comp_def, flags]
  · rw [regex?_of_head? (by simpa using slash), regex?_of_head? (by simpa using slash)]
    rfl

end

/-! ### Rules that read no further than the text -/

/-- The rule takes a beginning of the text, if it applies, whatever tail that opens with a break stands
behind the text. -/
def Lexer.Rule.Settled (rule : Rule) (before : Option Char) (c : Char) (r : Text) : Prop :=
  ∃ read : Option Step, ∀ w : Text, (∀ d ∈ w.head?, isBreak d = true) →
    rule before (c :: (r ++ w)) = read.map fun s => ⟨s.lexemes, s.rest ++ w, s.mode⟩

theorem settled_sign {kind : TokenKind} {next : Mode} {mark : Text} (nonempty : mark ≠ [])
    (free : ∀ d ∈ mark.tail, isBreak d = false) {before : Option Char} {c : Char} {r : Text} :
    (sign kind next mark).Settled before c r := by
  refine ⟨(after? mark (c :: r)).map fun rest => .single kind next (mark, rest), fun w stops => ?_⟩
  rw [sign, after?_cons_of_break stops nonempty free]
  cases after? mark (c :: r) <;> rfl

theorem settled_run {kind : TokenKind} {next : Mode} {first inside : Char → Bool}
    (outside : ∀ d, isBreak d = true → inside d = false) {before : Option Char} {c : Char} {r : Text} :
    (run kind next first inside).Settled before c r := by
  refine ⟨run kind next first inside before (c :: r), fun w stops => ?_⟩
  obtain ⟨taken, left⟩ := span_append_of_break stops outside r
  rw [run, run, taken, left]
  cases first c <;> rfl

theorem settled_one {kind : TokenKind} {next : Mode} {first : Char → Bool} {before : Option Char}
    {c : Char} {r : Text} : (one kind next first).Settled before c r := settled_run fun _ _ => rfl

theorem settled_keyword {before : Option Char} {c : Char} {r : Text} : keyword.Settled before c r := by
  refine ⟨keyword before (c :: r), fun w stops => ?_⟩
  obtain ⟨taken, left⟩ := span_append_of_break stops (p := isNameChar)
    (fun _ => isNameChar_of_isBreak) (c :: r)
  rw [keyword, keyword, ← List.cons_append, taken, left]
  split <;> rfl

/-- A backslash that ends the text takes what follows. -/
theorem settled_escape {before : Option Char} {c : Char} {r : Text} (more : ¬(c = '\\' ∧ r = [])) :
    escape.Settled before c r := by
  by_cases backslash : c = '\\'
  · subst backslash
    cases r with
    | nil => exact absurd ⟨rfl, rfl⟩ more
    | cons d r => exact ⟨some (.single .escape .template (['\\', d], r)), fun w _ => rfl⟩
  · refine ⟨none, fun w _ => ?_⟩
    unfold escape
    split
    · next spelled => exact absurd (List.cons.inj spelled).1 backslash
    · rfl

theorem longOperators_free :
    ∀ mark ∈ longOperators, mark ≠ [] ∧ ∀ d ∈ mark.tail, isBreak d = false := by decide

/-! ### Steps on two tails -/

/-- Two tails that stand apart and open alike. A neutral tail may stand against none at all. -/
structure Twins (w w' : Text) : Prop where
  left : Apart w
  right : Apart w'
  heads : w.head? = w'.head? ∨ w = [] ∧ w'.head? ≠ some '{'

/-- Two steps on a text with different tails read the same of the text, or each reads one lexeme
without a mark that runs on into its tail. -/
inductive Lexer.Step.Alike (w w' : Text) : Step → Step → Prop
  | same (ls : List Lexeme) (rest : Text) (mode : Mode) :
      Alike w w' ⟨ls, rest ++ w, mode⟩ ⟨ls, rest ++ w', mode⟩
  | runsOn {l l' : Lexeme} (t : Text) {more more' rest rest' : Text} (next next' : Mode) :
      l.text = t ++ more → w = more ++ rest → (more = [] → w = []) →
      l'.text = t ++ more' → w' = more' ++ rest' →
      (∀ x ∈ l.outline, x = none) → (∀ x ∈ l'.outline, x = none) →
      Alike w w' ⟨[l], rest, next⟩ ⟨[l'], rest', next'⟩

/-- The rule reads alike at the head of the text with either tail behind it. -/
def Lexer.Rule.Alike (rule : Rule) (w w' : Text) (before : Option Char) (c : Char) (r : Text) : Prop :=
  Option.Rel (Step.Alike w w') (rule before (c :: (r ++ w))) (rule before (c :: (r ++ w')))

theorem rel_findSome? {α β γ : Type} {R : β → γ → Prop} {f : α → Option β} {g : α → Option γ}
    {xs : List α} (h : ∀ x ∈ xs, Option.Rel R (f x) (g x)) :
    Option.Rel R (xs.findSome? f) (xs.findSome? g) := by
  induction xs with
  | nil => exact .none
  | cons x xs ih =>
    have later := ih fun y member => h y (List.mem_cons_of_mem x member)
    have here := h x List.mem_cons_self
    rw [List.findSome?_cons, List.findSome?_cons]
    generalize f x = a at here
    generalize g x = b at here
    cases here with
    | none => exact later
    | some related => exact .some related

theorem Lexeme.unmarked_of_inert {kind : TokenKind} (inert : kind.isInert = true) (t : Text) :
    ∀ x ∈ Lexeme.outline ⟨kind, t⟩, x = none := by
  rw [Lexeme.outline_of_inert inert]
  exact fun x member => List.eq_of_mem_replicate member

section
variable {w w' : Text} (twins : Twins w w') {before : Option Char} {c : Char} {r : Text}
include twins

/-- Where a run takes the whole text, it runs on into both tails or stops before both. -/
theorem alike_span {kind : TokenKind} (inert : kind.isInert = true) {next : Mode} {p : Char → Bool}
    (front t : Text) :
    Step.Alike w w' (.single kind next (front ++ (t ++ w).takeWhile p, (t ++ w).dropWhile p))
      (.single kind next (front ++ (t ++ w').takeWhile p, (t ++ w').dropWhile p)) := by
  rcases span_append_cases p t w with ⟨all, -, -, longer, behind⟩ | ⟨stops, taken, left⟩
  · have longer' : (t ++ w').takeWhile p = t ++ w'.takeWhile p := List.takeWhile_append_of_pos all
    have behind' : (t ++ w').dropWhile p = w'.dropWhile p := List.dropWhile_append_of_pos all
    have runsOn (ends : w.takeWhile p = [] → w = []) :
        Step.Alike w w' (.single kind next (front ++ (t ++ w.takeWhile p), w.dropWhile p))
          (.single kind next (front ++ (t ++ w'.takeWhile p), w'.dropWhile p)) :=
      .runsOn (front ++ t) next next (List.append_assoc front t _).symm
        List.takeWhile_append_dropWhile.symm ends (List.append_assoc front t _).symm
        List.takeWhile_append_dropWhile.symm (Lexeme.unmarked_of_inert inert _)
        (Lexeme.unmarked_of_inert inert _)
    rw [longer, behind, longer', behind']
    cases w with
    | nil => exact runsOn fun _ => rfl
    | cons d v =>
      by_cases takes : p d = true
      · exact runsOn fun none => by simp [takes] at none
      · obtain ⟨v', rfl⟩ : ∃ v', w' = d :: v' := by
          rcases twins.heads with same | ⟨none, -⟩
          · exact List.head?_eq_some_iff.1 same.symm
          · cases none
        simp only [List.takeWhile_cons_of_neg takes, List.dropWhile_cons_of_neg takes,
          List.append_nil]
        exact .same [_] [] next
  · have short := span_append_cases p t w'
    rcases short with ⟨-, -, none, -⟩ | ⟨-, taken', left'⟩
    · exact absurd none stops
    · rw [taken, left, taken', left']
      exact .same [_] _ next

theorem alike_run {kind : TokenKind} (inert : kind.isInert = true) {next : Mode}
    {first inside : Char → Bool} : (run kind next first inside).Alike w w' before c r := by
  rw [Rule.Alike, run, run]
  cases first c with
  | false => exact .none
  | true => exact .some (alike_span twins inert [c] r)

theorem Lexer.Rule.Settled.alike {rule : Rule} (settled : rule.Settled before c r) :
    rule.Alike w w' before c r := by
  obtain ⟨read, alone⟩ := settled
  rw [Rule.Alike, alone w twins.left.head, alone w' twins.right.head]
  cases read with
  | none => exact .none
  | some s => exact .some (.same s.lexemes s.rest s.mode)

/-- The sign that opens a substitution may be completed by the brace at the head of a tail. -/
theorem alike_dollar :
    (sign .interpolation .interpolation ['$', '{']).Alike w w' before c r := by
  unfold Rule.Alike sign
  by_cases dollar : c = '$'
  · subst dollar
    simp only [after?_cons, ↓reduceIte]
    cases r with
    | cons d r =>
      simp only [List.cons_append, after?_cons, after?_nil]
      by_cases brace : '{' = d
      · rw [if_pos brace, if_pos brace]
        exact .some (.same [_] r .interpolation)
      · rw [if_neg brace, if_neg brace]
        exact .none
    | nil =>
      rcases twins.heads with same | ⟨rfl, other⟩
      · cases w with
        | nil =>
          obtain rfl : w' = [] := by simpa using same.symm
          exact .none
        | cons d v =>
          obtain ⟨v', rfl⟩ := List.head?_eq_some_iff.1 same.symm
          simp only [List.nil_append, after?_cons, after?_nil]
          by_cases brace : '{' = d
          · rw [if_pos brace, if_pos brace, ← brace]
            exact .some (.runsOn ['$'] _ _ rfl List.singleton_append.symm (by simp) rfl
              List.singleton_append.symm
              (Lexeme.unmarked_of_inert rfl _) (Lexeme.unmarked_of_inert rfl _))
          · rw [if_neg brace, if_neg brace]
            exact .none
      · have none : after? ['{'] w' = none :=
          Option.eq_none_iff_forall_not_mem.2 fun rest found =>
            other (by rw [after?_eq_some_iff.1 found]; rfl)
        rw [List.nil_append, List.nil_append, none]
        exact .none
  · rw [after?_cons, after?_cons, if_neg (Ne.symm dollar), if_neg (Ne.symm dollar)]
    exact .none

theorem alike_blockComment : blockComment.Alike w w' before c r := by
  unfold Rule.Alike blockComment
  rw [twins.left.after?_cons (by simp) (by decide), twins.right.after?_cons (by simp) (by decide)]
  cases after? ['/', '*'] (c :: r) with
  | none => exact .none
  | some t =>
    simp only [Option.map_some]
    refine .some ?_
    rcases closed_or_open t with free | ⟨body, rest, rfl, free⟩
    · have longer {v : Text} (apart : Apart v) : blockTail (t ++ v) = onto t (blockTail v) :=
        blockTail_append_open free (apart.head?_ne (by decide))
      rw [longer twins.left, longer twins.right]
      exact .runsOn (['/', '*'] ++ t) .code .code (List.append_assoc ..).symm
        (blockTail_append w).symm (fun none => by_contra fun some => blockTail_ne_nil some none)
        (List.append_assoc ..).symm (blockTail_append w').symm
        (Lexeme.unmarked_of_inert rfl _) (Lexeme.unmarked_of_inert rfl _)
    · rw [List.append_assoc, List.append_assoc, List.cons_append, List.cons_append,
        List.cons_append, List.cons_append, blockTail_append_close free, blockTail_append_close free]
      exact .same [_] rest .code

theorem alike_lineComment : lineComment.Alike w w' before c r := by
  unfold Rule.Alike lineComment
  rw [twins.left.after?_cons (by simp) (by decide), twins.right.after?_cons (by simp) (by decide)]
  cases after? ['/', '/'] (c :: r) with
  | none => exact .none
  | some t =>
    exact .some (alike_span twins rfl ['/', '/'] t)

theorem alike_quoted {q : Char} {kind : TokenKind} (quote : isBreak q = false) :
    (quoted q kind).Alike w w' before c r := by
  unfold Rule.Alike quoted
  rw [twins.left.after?_cons (by simp) (by simp), twins.right.after?_cons (by simp) (by simp)]
  cases after? [q] (c :: r) with
  | none => exact .none
  | some t =>
    simp only [Option.map_some, Option.bind_some]
    rw [twins.left.quotedTail?_append quote, twins.right.quotedTail?_append quote]
    cases quotedTail? q t with
    | none => exact .none
    | some cut => exact .some (.same [_] cut.2 .code)

theorem alike_beforeRegex? (kind : TokenKind) (head r : Text) :
    Option.Rel (Step.Alike w w') (beforeRegex? kind head (r ++ w))
      (beforeRegex? kind head (r ++ w')) := by
  unfold beforeRegex?
  by_cases blank : ∀ d ∈ r, isBlank d = true
  · -- Only blanks stand behind the sign, and no slash follows them.
    have none {v : Text} (apart : Apart v) : regex? (trimLeft (r ++ v)) = none := by
      rw [trimLeft, List.dropWhile_append_of_pos blank]
      exact regex?_of_head? apart.noSlash
    rw [none twins.left, none twins.right]
    exact .none
  · have read (v : Text) : (r ++ v).takeWhile isBlank = r.takeWhile isBlank ∧
        trimLeft (r ++ v) = trimLeft r ++ v ∧ trimLeft r ≠ [] := by
      rcases span_append_cases isBlank r v with ⟨all, -⟩ | ⟨nonempty, taken, left⟩
      · exact absurd all blank
      · exact ⟨taken, left, nonempty⟩
    obtain ⟨taken, left, nonempty⟩ := read w
    obtain ⟨taken', left', -⟩ := read w'
    rw [taken, left, taken', left', twins.left.regex?_append nonempty,
      twins.right.regex?_append nonempty]
    cases regex? (trimLeft r) with
    | none => exact .none
    | some cut => exact .some (.same _ cut.2 .code)

/-- A literal behind one of the signs `heads` is read from the text alone. -/
theorem alike_regex {α : Type} {heads : List α} (kind : TokenKind) (head : α → Text)
    (known : ∀ a ∈ heads, head a ≠ [] ∧ ∀ d ∈ (head a).tail, isBreak d = false) :
    Rule.Alike (fun _ t => heads.findSome? fun a =>
      (after? (head a) t).bind (beforeRegex? kind (head a))) w w' before c r := by
  refine rel_findSome? fun a member => ?_
  obtain ⟨nonempty, free⟩ := known a member
  rw [twins.left.after?_cons nonempty free, twins.right.after?_cons nonempty free]
  cases after? (head a) (c :: r) with
  | none => exact .none
  | some rest => exact alike_beforeRegex? twins kind (head a) rest

theorem alike_code {rule : Rule} (member : rule ∈ rules .code) : rule.Alike w w' before c r := by
  simp only [rules, List.mem_cons, List.not_mem_nil, or_false] at member
  rcases member with rfl | rfl | rfl | rfl | rfl | rfl | rfl | rfl | rfl | rfl | rfl | rfl |
    rfl | rfl | rfl | rfl
  · exact alike_blockComment twins
  · exact alike_lineComment twins
  · exact alike_quoted twins (by decide)
  · exact alike_quoted twins (by decide)
  · exact (settled_sign (by simp) (by simp)).alike twins
  · exact alike_regex twins .bracket (fun c => [c]) (by decide)
  · exact alike_regex twins .operator id (by decide)
  · have words : Rule.Alike (fun _ t => operandWords.findSome? fun word =>
        (after? word t).bind (beforeRegex? .name word)) w w' before c r :=
      alike_regex twins .name id (by decide)
    unfold Rule.Alike wordRegex
    split
    · exact words
    · exact .none
  · exact settled_one.alike twins
  · refine rel_findSome? fun mark known => ?_
    obtain ⟨nonempty, free⟩ := longOperators_free mark known
    exact (settled_sign nonempty free).alike twins
  · exact settled_one.alike twins
  · exact settled_keyword.alike twins
  · exact (settled_run fun _ => isNameChar_of_isBreak).alike twins
  · exact (settled_run fun _ => inNumber_of_isBreak).alike twins
  · exact alike_run twins rfl
  · exact settled_one.alike twins

/-- A backslash at the end of the text takes the first character of the tail. -/
theorem alike_escape (h : ¬(c = '\\' ∧ r = [] ∧ w = [])) : escape.Alike w w' before c r := by
  by_cases last : c = '\\' ∧ r = []
  · obtain ⟨rfl, rfl⟩ := last
    obtain ⟨d, v, rfl⟩ := List.exists_cons_of_ne_nil fun none => h ⟨rfl, rfl, none⟩
    obtain ⟨v', rfl⟩ : ∃ v', w' = d :: v' := by
      rcases twins.heads with same | ⟨none, -⟩
      · exact List.head?_eq_some_iff.1 same.symm
      · cases none
    exact .some (.runsOn ['\\'] _ _ rfl List.singleton_append.symm (by simp) rfl
      List.singleton_append.symm
      (Lexeme.unmarked_of_inert rfl _) (Lexeme.unmarked_of_inert rfl _))
  · exact (settled_escape last).alike twins

theorem step_alike (mode : Mode) (before : Option Char) (c : Char) (r : Text) :
    (step mode before c (r ++ w)).Alike w w' (step mode before c (r ++ w')) := by
  have alike (all : ∀ rule ∈ rules mode, rule.Alike w w' before c r) :
      (step mode before c (r ++ w)).Alike w w' (step mode before c (r ++ w')) := by
    have found := rel_findSome? all
    unfold step
    generalize (rules mode).findSome? (fun rule => rule before (c :: (r ++ w))) = a at found
    generalize (rules mode).findSome? (fun rule => rule before (c :: (r ++ w'))) = b at found
    cases found with
    | none => exact .same [_] r mode
    | some related => exact related
  cases mode with
  | code => exact alike fun rule => alike_code twins
  | interpolation =>
    refine alike fun rule member => ?_
    simp only [rules, List.mem_cons, List.not_mem_nil, or_false] at member
    rcases member with rfl | rfl
    · exact (settled_sign (by simp) (by simp)).alike twins
    · exact alike_run twins rfl
  | template =>
    by_cases last : c = '\\' ∧ r = [] ∧ w = []
    · -- A backslash at the end of the text escapes what is put behind it.
      obtain ⟨rfl, rfl, rfl⟩ := last
      have alone : step .template before '\\' [] = .single .stray .template (['\\'], []) := by
        simp [step, rules, sign, after?, escape, templateText, run]
      rw [List.nil_append, List.nil_append, alone]
      cases w' with
      | nil =>
        rw [alone]
        exact .same [_] [] .template
      | cons d v =>
        rw [step_templateEscape]
        exact .runsOn ['\\'] _ _ (List.append_nil _).symm rfl (fun _ => rfl) rfl
          List.singleton_append.symm
          (Lexeme.outline_of_unmarked (by decide)) (Lexeme.unmarked_of_inert rfl _)
    · refine alike fun rule member => ?_
      simp only [rules, List.mem_cons, List.not_mem_nil, or_false] at member
      rcases member with rfl | rfl | rfl | rfl | rfl
      · exact (settled_sign (by simp) (by simp)).alike twins
      · exact alike_escape twins last
      · exact alike_dollar twins
      · exact alike_run twins rfl
      · exact (settled_sign (by simp) (by simp)).alike twins

end

end Ambient
