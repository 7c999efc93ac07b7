import Ambient.Proofs.Atom
import Ambient.Proofs.Trim

/-!
Texts that hold blanks and comments and nothing else. `Remark` writes them down, the last comment
possibly left open, and `lex_gap_iff` shows that they are exactly the texts in which the lexer reads
no other token.
-/

namespace Ambient

open Lexer

/-- Blanks and comments; the last comment may be left open. -/
inductive Remark : Text → Prop
  | nil : Remark []
  | blank {c : Char} {t : Text} : isBlank c = true → Remark t → Remark (c :: t)
  | block {body t : Text} : ¬ ['*', '/'] <:+: body → Remark t →
      Remark ('/' :: '*' :: (body ++ '*' :: '/' :: t))
  | openBlock {body : Text} : ¬ ['*', '/'] <:+: body → Remark ('/' :: '*' :: body)
  | line {body t : Text} : '\n' ∉ body → Remark t → Remark ('/' :: '/' :: (body ++ '\n' :: t))
  | openLine {body : Text} : '\n' ∉ body → Remark ('/' :: '/' :: body)

/-! ### Comments -/

theorem blockTail_open {body : Text} (h : ¬ ['*', '/'] <:+: body) : blockTail body = (body, []) := by
  induction body with
  | nil => rfl
  | cons c t ih =>
    have goesOn : ¬(c = '*' ∧ t.head? = some '/') := by
      rintro ⟨rfl, head⟩
      obtain ⟨r, rfl⟩ := List.head?_eq_some_iff.1 head
      exact h ⟨[], r, rfl⟩
    rw [blockTail, if_neg goesOn, ih fun inside => h (inside.trans (List.suffix_cons c t).isInfix)]
    rfl

/-- A text without a closing mark, or one cut at its first. -/
theorem closed_or_open (t : Text) : ¬ ['*', '/'] <:+: t ∨
    ∃ body rest, t = body ++ '*' :: '/' :: rest ∧ ¬ ['*', '/'] <:+: body := by
  induction t with
  | nil => exact .inl (by simp)
  | cons c t ih =>
    by_cases close : ['*', '/'] <+: c :: t
    · obtain ⟨rest, spelled⟩ := close
      exact .inr ⟨[], rest, spelled.symm, by simp⟩
    · rcases ih with free | ⟨body, rest, rfl, free⟩
      · exact .inl fun inside => (List.infix_cons_iff.1 inside).elim close free
      · refine .inr ⟨c :: body, rest, rfl, fun inside => ?_⟩
        refine (List.infix_cons_iff.1 inside).elim (fun start => close ?_) free
        exact start.trans ⟨'*' :: '/' :: rest, rfl⟩

/-- The first closing mark stands in one place. -/
theorem closed_unique {body body' rest rest' : Text} (free : ¬ ['*', '/'] <:+: body)
    (free' : ¬ ['*', '/'] <:+: body')
    (same : body ++ '*' :: '/' :: rest = body' ++ '*' :: '/' :: rest') : rest = rest' := by
  have read := blockTail_append_close free rest
  rw [same, blockTail_append_close free' rest'] at read
  exact (Prod.mk.inj read).2.symm

namespace Remark

theorem blank_iff {c : Char} (h : isBlank c = true) {t : Text} : Remark (c :: t) ↔ Remark t := by
  refine ⟨fun remark => ?_, .blank h⟩
  cases remark with
  | blank _ later => exact later
  | block | openBlock | line | openLine => exact absurd h (by decide)

theorem dropWhile_iff {t : Text} : Remark (t.dropWhile isBlank) ↔ Remark t := by
  induction t with
  | nil => rfl
  | cons c t ih =>
    by_cases blank : isBlank c = true
    · rw [List.dropWhile_cons_of_pos blank, blank_iff blank, ih]
    · rw [List.dropWhile_cons_of_neg blank]

theorem block_iff {body t : Text} (free : ¬ ['*', '/'] <:+: body) :
    Remark ('/' :: '*' :: (body ++ '*' :: '/' :: t)) ↔ Remark t := by
  refine ⟨fun remark => ?_, .block free⟩
  generalize spelled : '/' :: '*' :: (body ++ '*' :: '/' :: t) = whole at remark
  cases remark with
  | nil => cases spelled
  | blank blank => exact absurd ((List.cons.inj spelled).1 ▸ blank) (by decide)
  | block free' later =>
    rw [closed_unique free free' (List.cons.inj (List.cons.inj spelled).2).2]
    exact later
  | openBlock free' =>
    have same := (List.cons.inj (List.cons.inj spelled).2).2
    exact absurd ⟨body, t, by simp [← same]⟩ free'
  | line | openLine => simp at spelled

theorem line_iff {body t : Text} (free : '\n' ∉ body) :
    Remark ('/' :: '/' :: (body ++ '\n' :: t)) ↔ Remark t := by
  refine ⟨fun remark => ?_, .line free⟩
  generalize spelled : '/' :: '/' :: (body ++ '\n' :: t) = whole at remark
  cases remark with
  | nil => cases spelled
  | blank blank => exact absurd ((List.cons.inj spelled).1 ▸ blank) (by decide)
  | block | openBlock => simp at spelled
  | @line body' t' free' later =>
    have same := congrArg (pieces '\n') (List.cons.inj (List.cons.inj spelled).2).2
    rw [pieces_append free, pieces_append free'] at same
    have rest := congrArg (joinPieces '\n') (List.cons.inj same).2
    rw [joinPieces_pieces, joinPieces_pieces] at rest
    exact rest ▸ later
  | openLine free' =>
    have same := (List.cons.inj (List.cons.inj spelled).2).2
    exact absurd (by simp [← same]) free'

end Remark

/-! ### What the lexer reads as blanks and comments -/

theorem isDecimal_of_isBlank {c : Char} (h : isBlank c = true) : isDecimal c = false := by
  have apart : ∀ b ∈ blankRanges, (b.2 < 48 ∨ 57 < b.1) ∧
      decimalZeros.all fun z => b.2 < z || z + 9 < b.1 := by decide +kernel
  obtain ⟨b, range, within⟩ := List.any_eq_true.1 h
  obtain ⟨ascii, zeros⟩ := apart b range
  simp only [Bool.and_eq_true, decide_eq_true_eq] at within
  unfold isDecimal
  split
  · have : c.val.toNat = c.toNat := rfl
    simp only [Char.isDigit, Bool.and_eq_false_iff, decide_eq_false_iff_not, UInt32.le_iff_toNat_le,
      ge_iff_le]
    have low : ('0' : Char).val.toNat = 48 := rfl
    have high : ('9' : Char).val.toNat = 57 := rfl
    omega
  · refine List.any_eq_false.2 fun z member inside => ?_
    have := List.all_eq_true.1 zeros z member
    simp only [Bool.or_eq_true, Bool.and_eq_true, decide_eq_true_eq] at this inside
    omega

/-- Blanks are read up to the next character that is none. -/
theorem step_blank {c : Char} (h : isBlank c = true) (before : Option Char) (r : Text) :
    step .code before c r =
      .single .blank .code (c :: r.takeWhile isBlank, r.dropWhile isBlank) := by
  have signs : ∀ d ∈ literalSigns ++ signStarts, isBlank d = false := by decide
  have heads : ∀ head ∈ operandHeads, ∀ d ∈ head.head?, isBlank d = false := by decide
  have plain : c ∉ literalSigns ++ signStarts := fun member => by simp [signs c member] at h
  have quiet : Quiet (c :: r) :=
    quiet_of_foreign (fun head member first => by simp [heads head member c first] at h) r
  have noName : isNameChar c = false := by
    cases name : isNameChar c with
    | false => rfl
    | true => simp [isBlank_of_isNameChar name] at h
  have noStart : isNameStart c = false := by
    cases start : isNameStart c with
    | false => rfl
    | true => simp [isBlank_of_isNameStart start] at h
  rw [step_of_plain plain quiet]
  simp [keyword, keywords, name, number, blanks, run, noName, noStart, isDecimal_of_isBlank h, h]

theorem step_openComment {body : Text} (h : ¬ ['*', '/'] <:+: body) (before : Option Char) :
    step .code before '/' ('*' :: body) = .single .blockComment .code ('/' :: '*' :: body, []) := by
  simp [step, rules, blockComment, after?_cons, blockTail_open h, onto]

theorem step_openLine {body : Text} (h : '\n' ∉ body) (before : Option Char) :
    step .code before '/' ('/' :: body) = .single .lineComment .code ('/' :: '/' :: body, []) := by
  have inside : ∀ c ∈ body, (c != '\n') = true := by
    intro c member
    simpa using fun feed : c = '\n' => h (feed ▸ member)
  have cut : (body ++ []).takeWhile (· != '\n') = body ∧ (body ++ []).dropWhile (· != '\n') = [] :=
    span_of_stop inside (by simp)
  rw [List.append_nil] at cut
  simp [step, rules, blockComment, lineComment, after?_cons, onto, cut]

/-- A step that reads something other than a gap. -/
def Lexer.Step.Solid (s : Step) : Prop := ∃ l ∈ s.lexemes, l.kind.isGap = false

section
variable (kind : TokenKind) (solid : kind.isGap = false) {before : Option Char} {t : Text} {s : Step}
include solid

theorem Lexer.Step.single_solid (mode : Mode) (cut : Text × Text) :
    (Step.single kind mode cut).Solid :=
  ⟨_, List.mem_singleton.2 rfl, solid⟩

theorem sign_solid {next : Mode} {mark : Text} (h : sign kind next mark before t = some s) :
    s.Solid := by
  obtain ⟨_, -, rfl⟩ := Option.map_eq_some_iff.1 h
  exact Step.single_solid kind solid _ _

theorem run_solid {next : Mode} {first inside : Char → Bool}
    (h : run kind next first inside before t = some s) : s.Solid := by
  obtain ⟨c, r, -, -, rfl⟩ := run_eq_some h
  exact Step.single_solid kind solid _ _

theorem one_solid {next : Mode} {first : Char → Bool}
    (h : one kind next first before t = some s) : s.Solid :=
  run_solid kind solid h

theorem quoted_solid {q : Char} (h : quoted q kind before t = some s) : s.Solid := by
  obtain ⟨_, -, inner⟩ := Option.bind_eq_some_iff.1 h
  obtain ⟨_, -, rfl⟩ := Option.map_eq_some_iff.1 inner
  exact Step.single_solid kind solid _ _

theorem regex_solid {α : Type} {heads : List α} (head : α → Text)
    (h : (heads.findSome? fun a => (after? (head a) t).bind (beforeRegex? kind (head a))) = some s) :
    s.Solid := by
  obtain ⟨a, -, found⟩ := List.exists_of_findSome?_eq_some h
  obtain ⟨_, -, regex⟩ := Option.bind_eq_some_iff.1 found
  obtain ⟨_, -, rfl⟩ := Option.map_eq_some_iff.1 regex
  exact ⟨⟨kind, head a⟩, by simp, solid⟩

end

/-- A step in code reads only gaps when it starts with a blank or with the mark of a comment. -/
theorem step_solid (before : Option Char) {c : Char} {r : Text} (blank : isBlank c = false)
    (block : ∀ t, c :: r ≠ '/' :: '*' :: t) (line : ∀ t, c :: r ≠ '/' :: '/' :: t) :
    (step .code before c r).Solid := by
  unfold step
  cases found : (rules .code).findSome? fun rule => rule before (c :: r) with
  | none => exact Step.single_solid _ rfl _ _
  | some s =>
    obtain ⟨rule, member, read⟩ := List.exists_of_findSome?_eq_some found
    simp only [rules, List.mem_cons, List.not_mem_nil, or_false] at member
    rcases member with rfl | rfl | rfl | rfl | rfl | rfl | rfl | rfl | rfl | rfl | rfl | rfl |
      rfl | rfl | rfl | rfl
    · obtain ⟨t, spelled, -⟩ := Option.map_eq_some_iff.1 read
      exact absurd (after?_eq_some_iff.1 spelled) (block t)
    · obtain ⟨t, spelled, -⟩ := Option.map_eq_some_iff.1 read
      exact absurd (after?_eq_some_iff.1 spelled) (line t)
    · exact quoted_solid _ rfl read
    · exact quoted_solid _ rfl read
    · exact sign_solid _ rfl read
    · exact regex_solid .bracket rfl (fun c => [c]) read
    · exact regex_solid .operator rfl id read
    · unfold wordRegex at read
      split at read
      · exact regex_solid .name rfl id read
      · cases read
    · exact one_solid .bracket rfl read
    · obtain ⟨_, -, sign⟩ := List.exists_of_findSome?_eq_some read
      exact sign_solid _ rfl sign
    · exact one_solid .operator rfl read
    · unfold keyword at read
      split at read <;> cases read
      exact Step.single_solid _ rfl _ _
    · exact run_solid _ rfl read
    · exact run_solid _ rfl read
    · rw [blanks, Lexer.run, blank] at read
      cases read
    · exact one_solid .other rfl read

/-- **A text reads as blanks and comments alone exactly when it is written as such.** -/
theorem lex_gap_iff (before : Option Char) (t : Text) :
    (∀ l ∈ lex .code before t, l.kind.isGap = true) ↔ Remark t := by
  generalize size : t.length = n
  induction n using Nat.strongRecOn generalizing t before with
  | ind n ih =>
    cases t with
    | nil => exact ⟨fun _ => .nil, fun _ => by simp [lex]⟩
    | cons c r =>
      -- Every gap is one lexeme, and what follows it is shorter.
      have gap {kind : TokenKind} {read rest : Text} (inert : kind.isGap = true)
          (stepped : step .code before c r = .single kind .code (read, rest)) :
          (∀ l ∈ lex .code before (c :: r), l.kind.isGap = true) ↔ Remark rest := by
        have shorter : rest.length < (c :: r).length := by
          have := (step_tiles .code before c r).rest_lt
          rwa [stepped] at this
        rw [lex_of_step stepped, ← ih _ (size ▸ shorter) read.getLast? rest rfl]
        simp [inert]
      by_cases blank : isBlank c = true
      · rw [gap rfl (step_blank blank before r), Remark.dropWhile_iff, Remark.blank_iff blank]
      · by_cases block : ∃ u, c :: r = '/' :: '*' :: u
        · obtain ⟨u, spelled⟩ := block
          obtain ⟨rfl, rfl⟩ := List.cons.inj spelled
          rcases closed_or_open u with free | ⟨body, rest, rfl, free⟩
          · rw [gap rfl (step_openComment free before)]
            exact ⟨fun _ => .openBlock free, fun _ => .nil⟩
          · rw [gap rfl (step_blockComment free rest), Remark.block_iff free]
        · by_cases line : ∃ u, c :: r = '/' :: '/' :: u
          · obtain ⟨u, spelled⟩ := line
            obtain ⟨rfl, rfl⟩ := List.cons.inj spelled
            by_cases feed : '\n' ∈ u
            · obtain ⟨body, rest, rfl, free⟩ := List.eq_append_cons_of_mem feed
              rw [gap rfl (step_lineComment free rest), Remark.blank_iff (by decide),
                Remark.line_iff free]
            · rw [gap rfl (step_openLine feed before)]
              exact ⟨fun _ => .openLine feed, fun _ => .nil⟩
          · constructor
            · intro gaps
              obtain ⟨l, member, solid⟩ := step_solid before (by simpa using blank)
                (fun t same => block ⟨t, same⟩) (fun t same => line ⟨t, same⟩)
              have := gaps l (by rw [lex_cons]; exact List.mem_append_left _ member)
              simp [solid] at this
            · intro remark
              cases remark with
              | blank isBlank => exact absurd isBlank blank
              | block | openBlock => exact absurd ⟨_, rfl⟩ block
              | line | openLine => exact absurd ⟨_, rfl⟩ line

theorem Lexeme.mem_of_mem_place {start : Nat} {ls : List Lexeme} {t : Token}
    (h : t ∈ Lexeme.place start ls) : ⟨t.kind, t.text⟩ ∈ ls := by
  induction ls generalizing start with
  | nil => cases h
  | cons l ls ih =>
    rcases List.mem_cons.1 h with rfl | later
    · exact List.mem_cons_self
    · exact List.mem_cons_of_mem l (ih later)

theorem Lexeme.exists_mem_place (start : Nat) {ls : List Lexeme} {l : Lexeme} (h : l ∈ ls) :
    ∃ t ∈ Lexeme.place start ls, t.kind = l.kind := by
  induction ls generalizing start with
  | nil => cases h
  | cons m ls ih =>
    rcases List.mem_cons.1 h with rfl | later
    · exact ⟨_, List.mem_cons_self, rfl⟩
    · obtain ⟨t, member, kind⟩ := ih _ later
      exact ⟨t, List.mem_cons_of_mem _ member, kind⟩

theorem tokens_gap_iff (t : Text) : (∀ tok ∈ tokens t, tok.kind.isGap = true) ↔ Remark t := by
  rw [← lex_gap_iff none t]
  constructor
  · intro gaps l member
    obtain ⟨tok, found, kind⟩ := Lexeme.exists_mem_place 0 member
    exact kind ▸ gaps tok found
  · intro gaps tok member
    exact gaps _ (Lexeme.mem_of_mem_place member)

end Ambient
