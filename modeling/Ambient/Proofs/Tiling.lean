import Ambient.Proofs.Piece

/-!
Tokens tile the text. The rules of every mode together read any character but one: a backslash that
ends the text inside a template literal escapes nothing. So that is the only stray token, and all
others are *regular* (`step_cases`). Where the lexer stands shows in the lexemes it has read
(`Mode.after`), so a token list alone tells whether it ends inside a literal.
-/

namespace Ambient

namespace Lexer

/-- Where the lexer stands behind a lexeme. A back quote opens a template literal in code and closes
it inside; the marks of a substitution lead into it and back. -/
def Mode.behind : Mode → Lexeme → Mode
  | .code, l => if l = ⟨.template, ['`']⟩ then .template else .code
  | .template, l =>
    if l = ⟨.template, ['`']⟩ then .code
    else if l = ⟨.interpolation, ['$', '{']⟩ then .interpolation else .template
  | .interpolation, l => if l = ⟨.interpolation, ['}']⟩ then .template else .interpolation

/-- Where the lexer stands behind a run of lexemes. -/
def Mode.after (mode : Mode) (ls : List Lexeme) : Mode := ls.foldl Mode.behind mode

theorem Mode.after_append (mode : Mode) (ls ms : List Lexeme) :
    mode.after (ls ++ ms) = (mode.after ls).after ms := List.foldl_append

/-- Only a back quote leads out of code. -/
theorem Mode.behind_code {l : Lexeme} (h : l.kind ≠ .template) : Mode.code.behind l = .code := by
  have other : l ≠ ⟨.template, ['`']⟩ := by
    rintro rfl
    exact h rfl
  exact if_neg other

theorem Mode.after_code {ls : List Lexeme} (h : ∀ l ∈ ls, l.kind ≠ .template) :
    Mode.code.after ls = .code := by
  induction ls with
  | nil => rfl
  | cons l ls ih =>
    have head : Mode.code.behind l = .code := behind_code (h l List.mem_cons_self)
    rw [after, List.foldl_cons, head]
    exact ih fun m member => h m (List.mem_cons_of_mem l member)

/-- A lexeme of some rule: it is not stray, and a bracket is a single character. -/
structure Regular (l : Lexeme) : Prop where
  known : l.kind ≠ .stray
  bracket : l.kind = .bracket → ∃ c ∈ openers ++ closers, l.text = [c]

theorem regular_of_kind {l : Lexeme} (stray : l.kind ≠ .stray) (bracket : l.kind ≠ .bracket) :
    Regular l := ⟨stray, fun same => absurd same bracket⟩

/-- A step by a rule of the mode: its lexemes are regular, and they show the mode that follows. -/
structure Step.Regular (mode : Mode) (s : Step) : Prop where
  lexemes : ∀ l ∈ s.lexemes, Lexer.Regular l
  next : s.mode = mode.after s.lexemes

theorem Step.single_regular {mode next : Mode} {kind : TokenKind} {read rest : Text}
    (regular : Lexer.Regular ⟨kind, read⟩) (behind : mode.behind ⟨kind, read⟩ = next) :
    (Step.single kind next (read, rest)).Regular mode := by
  refine ⟨?_, behind.symm⟩
  intro l member
  obtain rfl := List.mem_singleton.1 member
  exact regular

/-! ### Rules -/

section
variable {before : Option Char} {t : Text} {s : Step}

/-- A class of lexemes that neither are brackets nor lead out of code. -/
def isOrdinary (kind : TokenKind) : Bool := kind != .stray && kind != .bracket && kind != .template

theorem regular_of_ordinary {kind : TokenKind} (h : isOrdinary kind = true) (read : Text) :
    Regular ⟨kind, read⟩ ∧ Mode.code.behind ⟨kind, read⟩ = .code := by
  obtain ⟨⟨stray, bracket⟩, template⟩ :
      (kind ≠ .stray ∧ kind ≠ .bracket) ∧ kind ≠ .template := by simpa [isOrdinary] using h
  exact ⟨regular_of_kind stray bracket, Mode.behind_code template⟩

theorem single_regular_of_ordinary {kind : TokenKind} (h : isOrdinary kind = true)
    (cut : Text × Text) : (Step.single kind .code cut).Regular .code := by
  obtain ⟨regular, behind⟩ := regular_of_ordinary h cut.1
  exact Step.single_regular regular behind

theorem run_regular {mode next : Mode} {kind : TokenKind} {first inside : Char → Bool}
    (h : run kind next first inside before t = some s)
    (regular : ∀ c w, first c = true → (∀ d ∈ w, inside d = true) →
      Regular ⟨kind, c :: w⟩ ∧ mode.behind ⟨kind, c :: w⟩ = next) : s.Regular mode := by
  obtain ⟨c, r, -, start, rfl⟩ := run_eq_some h
  obtain ⟨lexeme, behind⟩ := regular c (r.takeWhile inside) start fun d member =>
    List.all_eq_true.1 List.all_takeWhile d member
  exact Step.single_regular lexeme behind

theorem run_regular_of_ordinary {kind : TokenKind} (ordinary : isOrdinary kind = true)
    {first inside : Char → Bool} (h : run kind .code first inside before t = some s) :
    s.Regular .code :=
  run_regular h fun c w _ _ => regular_of_ordinary ordinary (c :: w)

theorem sign_regular {mode next : Mode} {kind : TokenKind} {mark : Text}
    (regular : Regular ⟨kind, mark⟩) (behind : mode.behind ⟨kind, mark⟩ = next)
    (h : sign kind next mark before t = some s) : s.Regular mode := by
  obtain ⟨r, -, rfl⟩ := Option.map_eq_some_iff.1 h
  exact Step.single_regular regular behind

theorem quoted_regular {q : Char} {kind : TokenKind} (ordinary : isOrdinary kind = true)
    (h : quoted q kind before t = some s) : s.Regular .code := by
  obtain ⟨r, -, read⟩ := Option.bind_eq_some_iff.1 h
  obtain ⟨cut, -, rfl⟩ := Option.map_eq_some_iff.1 read
  exact single_regular_of_ordinary ordinary _

theorem beforeRegex?_regular {kind : TokenKind} {head r : Text} (template : kind ≠ .template)
    (regular : Regular ⟨kind, head⟩) (h : beforeRegex? kind head r = some s) : s.Regular .code := by
  obtain ⟨⟨literal, rest⟩, -, rfl⟩ := Option.map_eq_some_iff.1 h
  have each : ∀ l ∈ (⟨kind, head⟩ : Lexeme) :: (if r.takeWhile isBlank = [] then [] else
      [⟨.blank, r.takeWhile isBlank⟩]) ++ [⟨.regex, literal⟩],
      Regular l ∧ l.kind ≠ .template := by
    intro l member
    simp only [List.cons_append, List.mem_cons, List.mem_append, List.not_mem_nil,
      or_false] at member
    rcases member with rfl | gap | rfl
    · exact ⟨regular, template⟩
    · split at gap
      · cases gap
      · obtain rfl := List.mem_singleton.1 gap
        exact ⟨regular_of_kind (by simp) (by simp), by simp⟩
    · exact ⟨regular_of_kind (by simp) (by simp), by simp⟩
  exact ⟨fun l member => (each l member).1,
    (Mode.after_code fun l member => (each l member).2).symm⟩

theorem bracket_regular (h : bracket before t = some s) : s.Regular .code := by
  refine run_regular h fun c w sign inside => ?_
  have single : w = [] := by
    cases w with
    | nil => rfl
    | cons d w => exact absurd (inside d List.mem_cons_self) (by simp)
  subst single
  exact ⟨⟨by simp, fun _ => ⟨c, by simpa using sign, rfl⟩⟩, Mode.behind_code (by simp)⟩

theorem code_regular {rule : Rule} (member : rule ∈ rules .code) (h : rule before t = some s) :
    s.Regular .code := by
  simp only [rules, List.mem_cons, List.not_mem_nil, or_false] at member
  rcases member with rfl | rfl | rfl | rfl | rfl | rfl | rfl | rfl | rfl | rfl | rfl | rfl | rfl |
    rfl | rfl | rfl
  · obtain ⟨_, -, rfl⟩ := Option.map_eq_some_iff.1 h
    exact single_regular_of_ordinary rfl _
  · obtain ⟨_, -, rfl⟩ := Option.map_eq_some_iff.1 h
    exact single_regular_of_ordinary rfl _
  · exact quoted_regular rfl h
  · exact quoted_regular rfl h
  · exact sign_regular (regular_of_kind (by decide) (by decide)) rfl h
  · obtain ⟨c, opener, found⟩ := List.exists_of_findSome?_eq_some h
    obtain ⟨_, -, regex⟩ := Option.bind_eq_some_iff.1 found
    have single : Regular ⟨.bracket, [c]⟩ :=
      ⟨by simp, fun _ => ⟨c, List.mem_append_left _ opener, rfl⟩⟩
    exact beforeRegex?_regular (by decide) single regex
  · obtain ⟨mark, -, found⟩ := List.exists_of_findSome?_eq_some h
    obtain ⟨_, -, regex⟩ := Option.bind_eq_some_iff.1 found
    exact beforeRegex?_regular (by decide) (regular_of_kind (by simp) (by simp)) regex
  · unfold wordRegex at h
    split at h
    · obtain ⟨word, -, found⟩ := List.exists_of_findSome?_eq_some h
      obtain ⟨_, -, regex⟩ := Option.bind_eq_some_iff.1 found
      exact beforeRegex?_regular (by decide) (regular_of_kind (by simp) (by simp)) regex
    · cases h
  · exact bracket_regular h
  · obtain ⟨mark, -, found⟩ := List.exists_of_findSome?_eq_some h
    exact sign_regular (regular_of_kind (by simp) (by simp)) (Mode.behind_code (by simp)) found
  · exact run_regular_of_ordinary rfl h
  · unfold keyword at h
    split at h <;> cases h
    exact single_regular_of_ordinary rfl _
  all_goals exact run_regular_of_ordinary rfl h

theorem template_regular {rule : Rule} (member : rule ∈ rules .template)
    (h : rule before t = some s) : s.Regular .template := by
  have inside (mark : Text) : Regular ⟨.template, mark⟩ := regular_of_kind (by simp) (by simp)
  simp only [rules, List.mem_cons, List.not_mem_nil, or_false] at member
  rcases member with rfl | rfl | rfl | rfl | rfl
  · exact sign_regular (inside _) rfl h
  · unfold escape at h
    split at h <;> cases h
    exact Step.single_regular (regular_of_kind (by simp) (by simp)) (by simp [Mode.behind])
  · exact sign_regular (regular_of_kind (by decide) (by decide)) rfl h
  · refine run_regular h fun c w plain _ => ⟨inside _, ?_⟩
    have open' : c ≠ '`' := by
      rintro rfl
      simp at plain
    simp [Mode.behind, open']
  · exact sign_regular (inside _) rfl h

theorem interpolation_regular {rule : Rule} (member : rule ∈ rules .interpolation)
    (h : rule before t = some s) : s.Regular .interpolation := by
  have inside (mark : Text) : Regular ⟨.interpolation, mark⟩ := regular_of_kind (by simp) (by simp)
  simp only [rules, List.mem_cons, List.not_mem_nil, or_false] at member
  rcases member with rfl | rfl
  · exact sign_regular (inside _) rfl h
  · refine run_regular h fun c w other _ => ⟨inside _, ?_⟩
    have open' : c ≠ '}' := by simpa using other
    simp [Mode.behind, open']

end

/-! ### Steps -/

section
variable {before : Option Char} {c : Char} {r : Text}

/-- The last rule of code takes every character but a line feed, which is blank. -/
theorem code_reads (before : Option Char) (c : Char) (r : Text) :
    ∃ rule ∈ rules .code, rule before (c :: r) ≠ none := by
  by_cases feed : c = '\n'
  · refine ⟨blanks, by simp [rules], ?_⟩
    have blank : isBlank c = true := by
      rw [feed]
      decide
    simp [blanks, run, blank]
  · refine ⟨other, by simp [rules], ?_⟩
    rw [other, one_cons, if_pos (by simpa using feed)]
    simp

/-- A template literal has a rule for everything but a backslash at the end. -/
theorem template_reads (h : ∀ rule ∈ rules .template, rule before (c :: r) = none) :
    c = '\\' ∧ r = [] := by
  have quote := h (sign .template .code ['`']) (by simp [rules])
  have escaped := h escape (by simp [rules])
  have text := h templateText (by simp [rules])
  have dollar := h (sign .template .template ['$']) (by simp [rules])
  have notQuote : c ≠ '`' := by
    rintro rfl
    simp [sign, after?_cons] at quote
  have notDollar : c ≠ '$' := by
    rintro rfl
    simp [sign, after?_cons] at dollar
  have backslash : c = '\\' := by
    by_contra other
    have plain : isTemplateText c = true := by simp [isTemplateText, notQuote, notDollar, other]
    rw [templateText_eq, run, if_pos plain] at text
    cases text
  subst backslash
  cases r with
  | nil => exact ⟨rfl, rfl⟩
  | cons d r => cases escaped

theorem interpolation_reads (before : Option Char) (c : Char) (r : Text) :
    ∃ rule ∈ rules .interpolation, rule before (c :: r) ≠ none := by
  by_cases brace : c = '}'
  · exact ⟨sign .interpolation .template ['}'], by simp [rules], by simp [sign, after?_cons, brace]⟩
  · exact ⟨substitution, by simp [rules], by simp [substitution, run, brace]⟩

/-- Every step is by a rule, except where the text ends with a backslash in a template literal. -/
theorem step_cases (mode : Mode) (before : Option Char) (c : Char) (r : Text) :
    (step mode before c r).Regular mode ∨
      mode = .template ∧ r = [] ∧
        step mode before c r = .single .stray .template (['\\'], []) := by
  unfold step
  cases found : (rules mode).findSome? fun rule => rule before (c :: r) with
  | some s =>
    obtain ⟨rule, member, read⟩ := List.exists_of_findSome?_eq_some found
    left
    cases mode with
    | code => exact code_regular member read
    | template => exact template_regular member read
    | interpolation => exact interpolation_regular member read
  | none =>
    have missing := List.findSome?_eq_none_iff.1 found
    right
    cases mode with
    | code =>
      obtain ⟨rule, member, reads⟩ := code_reads before c r
      exact absurd (missing rule member) reads
    | template =>
      obtain ⟨rfl, rfl⟩ := template_reads missing
      exact ⟨rfl, rfl, rfl⟩
    | interpolation =>
      obtain ⟨rule, member, reads⟩ := interpolation_reads before c r
      exact absurd (missing rule member) reads

end

/-! ### Runs -/

theorem lex_text_ne_nil (mode : Mode) (before : Option Char) (t : Text) :
    ∀ l ∈ lex mode before t, l.text ≠ [] := by
  fun_induction lex mode before t with
  | case1 => exact List.forall_mem_nil _
  | case2 mode before c r s ih =>
    intro l member
    rcases List.mem_append.1 member with here | later
    · exact (step_tiles mode before c r).lexeme_text l here
    · exact ih l later

/-- A lexeme is regular, or it is a backslash that ends the text inside a template literal. -/
theorem lex_cases (mode : Mode) (before : Option Char) (t : Text) :
    ∀ ls l ms, lex mode before t = ls ++ l :: ms →
      Regular l ∨ l = ⟨.stray, ['\\']⟩ ∧ ms = [] ∧ mode.after ls = .template := by
  fun_induction lex mode before t with
  | case1 =>
    intro ls l ms split
    simp at split
  | case2 mode before c r s ih =>
    intro ls l ms split
    rcases step_cases mode before c r with regular | ⟨rfl, rfl, stray⟩
    · rcases List.append_eq_append_iff.1 split with ⟨later, front, rest⟩ | ⟨here, front, rest⟩
      · rw [front, Mode.after_append, ← regular.next]
        exact ih later l ms rest
      · cases here with
        | nil =>
          rw [List.append_nil] at front
          rw [← front, ← regular.next]
          exact ih [] l ms rest.symm
        | cons m here =>
          obtain ⟨rfl, -⟩ := List.cons.inj rest
          exact .inl (regular.lexemes l (front ▸ List.mem_append_right ls List.mem_cons_self))
    · have alone : [(⟨.stray, ['\\']⟩ : Lexeme)] = ls ++ l :: ms := by
        rw [← split]
        simp only [s, stray, Step.single, lex, List.append_nil]
      obtain ⟨rfl, rest⟩ | ⟨_, none⟩ := List.singleton_eq_append_iff.1 alone
      · obtain ⟨rfl, rfl⟩ := List.cons.inj rest
        exact .inr ⟨rfl, rfl, rfl⟩
      · cases none

end Lexer

open Lexer

/-- The offset of a placed lexeme is the length of what stands before it. -/
theorem Lexeme.start_of_place {start : Nat} {ls : List Lexeme} {ks ms : List Token} {k : Token}
    (h : Lexeme.place start ls = ks ++ k :: ms) :
    k.start = start + (ks.flatMap Token.text).length := by
  induction ls generalizing start ks with
  | nil => simp [place] at h
  | cons l ls ih =>
    rw [place] at h
    cases ks with
    | nil =>
      obtain ⟨rfl, -⟩ := List.cons.inj h
      rfl
    | cons j ks =>
      obtain ⟨rfl, rest⟩ := List.cons.inj h
      rw [ih rest, List.flatMap_cons, List.length_append, Nat.add_assoc]

/-- What only the last of a list satisfies, at most one satisfies. -/
theorem countP_le_one_of_last {α : Type} {p : α → Bool} {xs : List α}
    (h : ∀ ys x zs, xs = ys ++ x :: zs → p x = true → zs = []) : xs.countP p ≤ 1 := by
  induction xs with
  | nil => exact Nat.zero_le 1
  | cons x xs ih =>
    have later : xs.countP p ≤ 1 := by
      apply ih
      intro ys y zs split
      exact h (x :: ys) y zs (congrArg (x :: ·) split)
    by_cases here : p x = true
    · have rest : xs = [] := h [] x xs rfl here
      simp [rest, here]
    · rwa [List.countP_cons_of_neg here]

theorem lexemes_tokens (t : Text) : (tokens t).map Token.lexeme = lex .code none t :=
  Lexeme.map_place 0 _

theorem text_tokens (t : Text) : (tokens t).flatMap Token.text = t := by
  have spelled := spell_lex .code none t
  rwa [← lexemes_tokens, Lexeme.spell, List.flatMap_map] at spelled

/-- Where the lexer stands behind the tokens of a text's beginning. -/
def modeBehind (ks : List Token) : Mode := Mode.code.after (ks.map Token.lexeme)

/-- **Tokens tile the text.** They are not empty and spell the text, and each starts where the ones
before it end. A bracket token is one bracket. A stray token is a backslash that ends the text
inside a template literal, so it is the last token and the only one. -/
theorem tokens_tile (t : Text) :
    (∀ k ∈ tokens t, k.text ≠ []) ∧
    (tokens t).flatMap Token.text = t ∧
    (∀ ks k ms, tokens t = ks ++ k :: ms → k.start = (ks.flatMap Token.text).length) ∧
    (∀ k ∈ tokens t, k.kind = .bracket → ∃ c ∈ openers ++ closers, k.text = [c]) ∧
    (∀ ks k ms, tokens t = ks ++ k :: ms → k.kind = .stray →
      k.text = ['\\'] ∧ ms = [] ∧ modeBehind ks = .template) ∧
    (tokens t).countP (·.kind == .stray) ≤ 1 := by
  have lexed {ks : List Token} {k : Token} {ms : List Token} (h : tokens t = ks ++ k :: ms) :
      lex .code none t = ks.map Token.lexeme ++ k.lexeme :: ms.map Token.lexeme := by
    rw [← lexemes_tokens, h, List.map_append, List.map_cons]
  have stray : ∀ ks k ms, tokens t = ks ++ k :: ms → k.kind = .stray →
      k.text = ['\\'] ∧ ms = [] ∧ modeBehind ks = .template := by
    intro ks k ms split kind
    rcases lex_cases .code none t _ _ _ (lexed split) with regular | ⟨same, last, inside⟩
    · exact absurd kind regular.known
    · exact ⟨congrArg Lexeme.text same, List.map_eq_nil_iff.1 last, inside⟩
  refine ⟨?_, text_tokens t, fun ks k ms split => ?_, ?_, stray, ?_⟩
  · intro k member
    have inside : k.lexeme ∈ lex .code none t := lexemes_tokens t ▸ List.mem_map_of_mem member
    exact lex_text_ne_nil .code none t _ inside
  · rw [Lexeme.start_of_place split, Nat.zero_add]
  · intro k member kind
    obtain ⟨ks, ms, split⟩ := List.append_of_mem member
    rcases lex_cases .code none t _ _ _ (lexed split) with regular | ⟨same, -⟩
    · exact regular.bracket kind
    · have clash : TokenKind.bracket = .stray := kind.symm.trans (congrArg Lexeme.kind same)
      cases clash
  · apply countP_le_one_of_last
    intro ks k ms split kind
    exact (stray ks k ms split (by simpa using kind)).2.1

/-- A literal that breaks off behind a backslash, after a substitution. -/
theorem tokens_tile_broken_literal :
    let t : Text := "a`$\x7bb\x7d\\".toList
    let k : Token := ⟨6, .stray, ['\\']⟩
    tokens t = (tokens t).take 5 ++ [k] ∧
      k.start = (((tokens t).take 5).flatMap Token.text).length ∧
      modeBehind ((tokens t).take 5) = .template := by
  intro t k
  have split : tokens t = (tokens t).take 5 ++ [k] := by decide +kernel
  obtain ⟨-, -, offset, -, stray, -⟩ := tokens_tile t
  exact ⟨split, offset _ k [] split, (stray _ k [] split rfl).2.2⟩

end Ambient
