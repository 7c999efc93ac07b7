import Ambient.Declaration.Function
import Ambient.Proofs.Surroundings
import Ambient.Proofs.Tiling

/-!
The body of a function does not show in its signature. A brace that ends its line is a token or part
of one whatever stands on the lines behind it (`lex_upto_brace`), so two functions that differ only
behind the brace of the body are reduced to the same signature (`signature_conceals_body`).
-/

namespace Ambient

open Lexer

/-! ### Up to a brace -/

theorem eq_nil_of_spell {ls : List Lexeme} (solid : ∀ l ∈ ls, l.text ≠ [])
    (none : Lexeme.spell ls = []) : ls = [] := by
  cases ls with
  | nil => rfl
  | cons l ls => exact absurd (List.append_eq_nil_iff.1 none).1 (solid l List.mem_cons_self)

/-- Where two runs of lexemes agree, the one that spells more goes on behind the other. -/
theorem exists_append_of_spell {ks ls xs ys : List Lexeme} {rest : Text}
    (solid : ∀ k ∈ ks, k.text ≠ []) (split : ks ++ xs = ls ++ ys)
    (spelled : Lexeme.spell ls = Lexeme.spell ks ++ rest) :
    ∃ later, ls = ks ++ later ∧ xs = later ++ ys ∧ Lexeme.spell later = rest := by
  induction ks generalizing ls with
  | nil => exact ⟨ls, rfl, split, spelled⟩
  | cons k ks ih =>
    cases ls with
    | nil =>
      have text : k.text = [] := by simp_all [Lexeme.spell]
      exact absurd text (solid k List.mem_cons_self)
    | cons l ls =>
      obtain ⟨rfl, behind⟩ := List.cons.inj split
      rw [Lexeme.spell, Lexeme.spell, List.flatMap_cons, List.flatMap_cons, List.append_assoc,
        List.append_cancel_left_eq] at spelled
      obtain ⟨later, rfl, same, text⟩ :=
        ih (fun m member => solid m (List.mem_cons_of_mem k member)) behind spelled
      exact ⟨later, rfl, same, text⟩

/-- A step that stops inside a text reads a head of the text. -/
theorem Lexer.Step.Tiles.inside {ls : List Lexeme} {u rest t : Text} {next : Mode}
    (tiles : Step.Tiles ⟨ls, rest ++ t, next⟩ (u ++ t)) :
    u = Lexeme.spell ls ++ rest ∧ rest.length < u.length := by
  have whole := tiles.spell
  have count := tiles.rest_lt
  rw [← List.append_assoc, List.append_cancel_right_eq] at whole
  simp only [List.length_append] at count
  exact ⟨whole.symm, by omega⟩

/-- A bracket is read in code only. -/
theorem eq_code_of_lex_bracket {mode : Mode} {before : Option Char} {b : Text} {l : Lexeme}
    {ms : List Lexeme} (split : lex mode before ('{' :: b) = l :: ms) (bracket : l.kind = .bracket) :
    mode = .code := by
  have read : ∀ {kind : TokenKind} {next : Mode} {cut : Text × Text},
      step mode before '{' b = .single kind next cut → kind = .bracket := by
    intro kind next cut read
    rw [lex_cons, read] at split
    obtain ⟨rfl, -⟩ := List.cons.inj split
    exact bracket
  cases mode with
  | code => rfl
  | template =>
    have text : step .template before '{' b = .single .template .template
        ('{' :: b.takeWhile isTemplateText, b.dropWhile isTemplateText) := by
      simp [step, rules, sign, after?_cons, escape, templateText_eq, run, isTemplateText]
    cases read text
  | interpolation =>
    have text : step .interpolation before '{' b = .single .interpolation .interpolation
        ('{' :: b.takeWhile (· != '}'), b.dropWhile (· != '}')) := by
      simp [step, rules, sign, after?_cons, substitution, run]
    cases read text

/-- The lexemes before a brace that is a token of its own stay when the text behind it changes. -/
theorem lex_upto_brace {b b' : Text} (twins : Twins ('{' :: b) ('{' :: b')) (mode : Mode)
    (before : Option Char) (u : Text) {ls ms : List Lexeme}
    (split : lex mode before (u ++ '{' :: b) = ls ++ ⟨.bracket, ['{']⟩ :: ms)
    (spelled : Lexeme.spell ls = u) :
    ∃ ms', lex mode before (u ++ '{' :: b') = ls ++ ⟨.bracket, ['{']⟩ :: ms' := by
  generalize size : u.length = n
  induction n using Nat.strongRecOn generalizing u mode before ls with
  | ind n ih =>
    cases u with
    | nil =>
      have solid := lex_text_ne_nil mode before ([] ++ '{' :: b)
      obtain rfl : ls = [] := eq_nil_of_spell
        (fun l member => solid l (by rw [split]; exact List.mem_append_left _ member)) spelled
      obtain rfl : mode = .code := eq_code_of_lex_bracket split rfl
      exact exists_lex_brace before b'
    | cons c r =>
      have tiles := step_tiles mode before c (r ++ '{' :: b)
      have alike := step_alike twins mode before c r
      rw [List.cons_append, lex_cons] at split ⊢
      generalize step mode before c (r ++ '{' :: b) = s at alike split tiles
      generalize step mode before c (r ++ '{' :: b') = s' at alike
      cases alike with
      | same ks rest next =>
        obtain ⟨text, shorter⟩ := tiles.inside (u := c :: r)
        obtain ⟨later, rfl, behind, left⟩ :=
          exists_append_of_spell tiles.lexeme_text split (spelled.trans text)
        obtain ⟨ms', read⟩ := ih rest.length (size ▸ shorter) next (Lexeme.spell ks).getLast? rest
          behind left rfl
        exact ⟨ms', by rw [read, List.append_assoc]⟩
      | @runsOn l l' t more more' rest rest' next next' text behind short _ _ _ _ =>
        -- The first lexeme takes the brace, so no lexeme of its own can spell the text before it.
        have whole := tiles.spell
        have front : l.text = c :: r ++ more := by
          simp only [Lexeme.spell, List.flatMap_cons, List.flatMap_nil, List.append_nil, text,
            List.append_assoc, behind, ← List.cons_append, List.append_cancel_right_eq] at whole
          rw [text, whole]
        have taken : more ≠ [] := fun none => List.cons_ne_nil _ _ (short none)
        cases ls with
        | nil => cases spelled
        | cons k ls =>
          obtain ⟨rfl, -⟩ := List.cons.inj split
          rw [Lexeme.spell, List.flatMap_cons, front, List.append_assoc,
            List.append_right_eq_self] at spelled
          exact absurd (List.append_eq_nil_iff.1 spelled).1 taken

namespace Nesting

/-- The search for the body depends on the lexemes up to the brace alone. -/
theorem exists_of_bodyFrom {h : Header} {start n : Nat} {ls : List Lexeme}
    (found : bodyFrom h (Lexeme.place start ls) = some n) :
    ∃ ks ms, ls = ks ++ ⟨.bracket, ['{']⟩ :: ms ∧ n = start + (Lexeme.spell ks).length ∧
      ∀ start ms, bodyFrom h (Lexeme.place start (ks ++ ⟨.bracket, ['{']⟩ :: ms)) =
        some (start + (Lexeme.spell ks).length) := by
  induction ls generalizing h start with
  | nil => cases found
  | cons l ls ih =>
    rw [Lexeme.place, bodyFrom] at found
    by_cases gap : l.kind.isGap = true
    · rw [if_pos gap] at found
      obtain ⟨ks, ms, rfl, rfl, again⟩ := ih found
      refine ⟨l :: ks, ms, rfl, by simp [Lexeme.spell, Nat.add_assoc], fun start ms => ?_⟩
      rw [List.cons_append, Lexeme.place, bodyFrom, if_pos gap, again]
      simp [Lexeme.spell, Nat.add_assoc]
    · rw [if_neg gap] at found
      by_cases opens : h.bodyOpensAt ⟨start, l.kind, l.text⟩ = true
      · rw [if_pos opens] at found
        obtain ⟨kind, text⟩ : l.kind = .bracket ∧ l.text = ['{'] := by
          simp only [Header.bodyOpensAt, Token.is, Bool.and_eq_true, beq_iff_eq] at opens
          exact opens.1.1.1
        obtain rfl : l = ⟨.bracket, ['{']⟩ := by rw [← kind, ← text]
        refine ⟨[], ls, rfl, (Option.some.inj found).symm, fun start ms => ?_⟩
        rw [List.nil_append, Lexeme.place, bodyFrom, if_neg gap]
        exact if_pos opens
      · rw [if_neg opens] at found
        obtain ⟨ks, ms, rfl, rfl, again⟩ := ih found
        refine ⟨l :: ks, ms, rfl, by simp [Lexeme.spell, Nat.add_assoc], fun start' ms => ?_⟩
        have closed : h.bodyOpensAt ⟨start', l.kind, l.text⟩ ≠ true := opens
        rw [List.cons_append, Lexeme.place, bodyFrom, if_neg gap, if_neg closed]
        refine (again (start' + l.text.length) ms).trans ?_
        simp [Lexeme.spell, Nat.add_assoc]

/-- A body that opens at the end of a line opens there whatever the lines behind it. -/
theorem bodyBrace?_stable {h b b' : Text} (left : NextLine b) (right : NextLine b')
    (found : bodyBrace? (h ++ '{' :: b) = some h.length) :
    bodyBrace? (h ++ '{' :: b') = some h.length := by
  have twins : Twins ('{' :: b) ('{' :: b') := ⟨apart_brace left, apart_brace right, .inl rfl⟩
  obtain ⟨ks, ms, split, length, again⟩ := exists_of_bodyFrom found
  have spelled : Lexeme.spell ks = h := by
    have whole := spell_lex .code none (h ++ '{' :: b)
    rw [split, Lexeme.spell, List.flatMap_append] at whole
    exact (List.append_inj whole (by simpa [Lexeme.spell] using length.symm)).1
  obtain ⟨ms', read⟩ := lex_upto_brace twins .code none h split spelled
  rw [bodyBrace?, tokens, read, again, spelled, Nat.zero_add]

/-- Blanks before a function only move its body. -/
theorem bodyBrace?_trimLeft {h b : Text} (found : bodyBrace? (h ++ '{' :: b) = some h.length) :
    bodyBrace? (trimLeft h ++ '{' :: b) = some (trimLeft h).length := by
  cases h with
  | nil => exact found
  | cons c r =>
    by_cases blank : isBlank c = true
    · obtain ⟨taken, left⟩ := takeWhile_append_stop (p := isBlank) (c := '{') (by decide) r b
      rw [bodyBrace?, tokens, List.cons_append, lex_blanks blank, taken, left, Lexeme.place, bodyFrom,
        if_pos (by rfl)] at found
      obtain ⟨ks, ms, split, length, again⟩ := exists_of_bodyFrom found
      have same : (Lexeme.spell ks).length = (r.dropWhile isBlank).length := by
        have whole := congrArg List.length (List.takeWhile_append_dropWhile (p := isBlank) (l := r))
        simp only [List.length_cons, List.length_append] at length whole
        omega
      rw [trimLeft, List.dropWhile_cons_of_pos blank, bodyBrace?, tokens, split, again, same,
        Nat.zero_add]
    · rw [trimLeft, List.dropWhile_cons_of_neg blank]
      exact found

end Nesting

open Nesting

theorem NextLine.trimRight {b : Text} (h : NextLine b) : NextLine (trimRight b) := by
  obtain ⟨w, -, split⟩ := exists_trimRight_append b
  cases kept : Ambient.trimRight b with
  | nil => exact .inl rfl
  | cons c r =>
    rw [split, kept] at h
    exact .inr (by simpa [NextLine] using h)

/-- The signature of a function is the text before the brace of its body. -/
theorem signature_trim {h b : Text} (next : NextLine b)
    (found : bodyBrace? (h ++ '{' :: b) = some h.length) :
    Function.signature (trim (h ++ '{' :: b)) = trimRight (trimRightBy (· == ';') (trim h)) := by
  have left : trimLeft (h ++ '{' :: b) = trimLeft h ++ '{' :: b :=
    (takeWhile_append_stop (p := isBlank) (c := '{') (by decide) h b).2
  have trimmed : trim (h ++ '{' :: b) = trimLeft h ++ '{' :: trimRight b := by
    have cut := trimRight_append_of_getLast (t := trimLeft h ++ ['{']) (c := '{') (by simp)
      (by decide) b
    simp only [List.append_assoc, List.singleton_append] at cut
    rw [trim, left, cut]
  have brace : bodyBrace? (trimLeft h ++ '{' :: trimRight b) = some (trimLeft h).length :=
    bodyBrace?_stable next next.trimRight (bodyBrace?_trimLeft found)
  rw [trimmed, Function.signature, brace, Option.getD_some, List.take_left' rfl, trim,
    trimLeft_trimLeft, ← trim]

/-- **The body of a function never shows in its signature.** Where the brace behind `h` is the brace
of the body and nothing else stands on its line, it stays so whatever is put on the next lines, and
the function is reduced to the same text. -/
theorem signature_conceals_body {h b b' : Text} (left : NextLine b) (right : NextLine b')
    (found : bodyBrace? (h ++ '{' :: b) = some h.length) :
    bodyBrace? (h ++ '{' :: b') = some h.length ∧
      Function.ambient (h ++ '{' :: b) = Function.ambient (h ++ '{' :: b') := by
  have brace := bodyBrace?_stable left right found
  have cut := signature_trim left found
  rw [← signature_trim right brace] at cut
  exact ⟨brace, congrArg (fun t => "export declare ".toList ++
    Function.withoutStar (Function.withoutModifiers t) ++ [';']) cut⟩

/-- A header with brackets in its literals, and a body that is no code at all. -/
theorem broken_body_concealed :
    let h : Text := "export function f(open = \"(\", close = /[)`]/) ".toList
    let b : Text := "\n  return `*/ $\x7bopen\n'\x7d".toList
    bodyBrace? (h ++ ['{']) = some h.length ∧ NextLine b ∧
      bodyBrace? (h ++ '{' :: b) = some h.length ∧
      Function.ambient (h ++ ['{']) = Function.ambient (h ++ '{' :: b) := by
  intro h b
  have found : bodyBrace? (h ++ ['{']) = some h.length := by decide +kernel
  have next : NextLine b := .inr (by decide)
  exact ⟨found, next, signature_conceals_body (.inl rfl) next found⟩

end Ambient
