import Ambient.Nesting.Levels
import Ambient.Proofs.Tiling
import Ambient.Proofs.Written

/-!
Nesting levels, line by line. Like balances, the levels of lines depend on the marks of their text
alone (`levelsFrom_place`); where every line ends its literals, a line stands at the depth of the
lines before it, one level above it when it starts with a closing bracket (`levels_of_written`).
-/

namespace Ambient

open Lexer

namespace Outline

/-- A closing bracket stands at the head. -/
def closesFirst (o : Outline) : Bool := o.head?.any (·.any (closers.contains ·))

end Outline

/-- A lexeme of several characters shows no mark. -/
theorem Lexeme.outline_of_long {l : Lexeme} (sharp : l.Sharp) (long : 1 < l.text.length) :
    l.outline = List.replicate l.text.length none := by
  rcases sharp with inert | unmarked | ⟨c, single, -⟩
  · exact outline_of_inert inert
  · exact List.eq_replicate_iff.2 ⟨l.length_outline, outline_of_unmarked unmarked⟩
  · rw [single] at long
    exact absurd long (by simp)

/-- A token is a closing bracket exactly when its outline shows one first. -/
theorem Lexeme.isCloser_of_sharp {l : Lexeme} (sharp : l.Sharp) (start : Nat) :
    Token.isCloser ⟨start, l.kind, l.text⟩ = l.outline.closesFirst := by
  have known : ∀ c ∈ closers, isMark c = true := by decide
  have unmarkedFirst {o : Outline} (unmarked : ∀ x ∈ o, x = none) : o.closesFirst = false := by
    cases o with
    | nil => rfl
    | cons x o =>
      obtain rfl := unmarked x List.mem_cons_self
      rfl
  obtain ⟨kind, text⟩ := l
  rcases sharp with inert | unmarked | ⟨c, single, active, bracket⟩
  · have other : kind ≠ .bracket := by
      rintro rfl
      cases inert
    rw [unmarkedFirst fun x member => List.eq_of_mem_replicate (outline_of_inert inert ▸ member)]
    simp [Token.isCloser, other]
  · have other : (closers.any fun c => text == [c]) = false := by
      refine List.any_eq_false.2 fun c member same => ?_
      obtain rfl : text = [c] := by simpa using same
      have mark := known c member
      rw [unmarked c (by simp)] at mark
      cases mark
    rw [unmarkedFirst (outline_of_unmarked unmarked)]
    simp [Token.isCloser, other]
  · obtain rfl : text = [c] := single
    have shown : outline ⟨kind, [c]⟩ = [mark? c] := by simp [outline, active]
    rw [shown]
    by_cases closer : c ∈ closers
    · obtain rfl : kind = .bracket := bracket (List.mem_append_right _ closer)
      simp [Token.isCloser, Outline.closesFirst, mark?, known c closer, closer]
    · have hidden : (mark? c).any (closers.contains ·) = false := by
        unfold mark?
        split <;> simp [closer]
      simp only [Token.isCloser, Outline.closesFirst, List.head?_cons, Option.any_some, hidden]
      simp only [Bool.and_eq_false_iff, List.any_eq_false]
      refine .inr fun d member same => closer ?_
      obtain rfl : c = d := by simpa using same
      exact member

/-- Lexemes with the marks still to be read from offset `start` on; the first lexeme stands at
`next`, behind the rest of the one before it. -/
structure Awaits (start next : Nat) (ls : List Lexeme) (o : Outline) : Prop where
  bound : start ≤ next
  marks : o = List.replicate (next - start) none ++ Lexeme.outlines ls
  sharp : ∀ l ∈ ls, l.Sharp ∧ l.text ≠ []

namespace Awaits

theorem place_of_le {next stop : Nat} (behind : stop ≤ next) (ls : List Lexeme) :
    (Lexeme.place next ls).takeWhile (·.start < stop) = [] ∧
      (Lexeme.place next ls).dropWhile (·.start < stop) = Lexeme.place next ls := by
  cases ls with
  | nil => exact ⟨rfl, rfl⟩
  | cons l ls => simp [Lexeme.place, behind]

theorem depth_blanks (n : Nat) : Outline.depth (List.replicate n none) = 0 :=
  Outline.depth_of_unmarked fun _ member => List.eq_of_mem_replicate member

/-- Cutting within the rest of a lexeme. -/
theorem cut_rest {start next stop : Nat} {ls : List Lexeme} {o : Outline} (h : Awaits start next ls o)
    (behind : start ≤ stop) (short : stop ≤ next) :
    Awaits stop next ls (o.drop (stop - start)) ∧ Outline.depth (o.take (stop - start)) = 0 := by
  obtain ⟨bound, rfl, sharp⟩ := h
  have within : stop - start ≤ (List.replicate (next - start) (none : Option Char)).length := by
    rw [List.length_replicate]
    omega
  refine ⟨⟨short, ?_, sharp⟩, ?_⟩
  · rw [List.drop_append_of_le_length within, List.drop_replicate]
    congr 2
    omega
  · rw [List.take_append_of_le_length within, List.take_replicate, depth_blanks]

/-- A lexeme that runs over the cut has no marks. -/
theorem cut_long {start next stop : Nat} {l : Lexeme} {ls : List Lexeme} {o : Outline}
    (h : Awaits start next (l :: ls) o) (behind : start ≤ stop) (inside : next < stop)
    (runsOn : stop < next + l.text.length) :
    (Lexeme.place next (l :: ls)).takeWhile (·.start < stop) = Lexeme.place next [l] ∧
      (Lexeme.place next (l :: ls)).dropWhile (·.start < stop) =
        Lexeme.place (next + l.text.length) ls ∧
      Awaits stop (next + l.text.length) ls (o.drop (stop - start)) ∧
      Outline.depth (o.take (stop - start)) = balanceOf Token.shift (Lexeme.place next [l]) := by
  obtain ⟨bound, rfl, sharp⟩ := h
  have here := (sharp l List.mem_cons_self).1
  have unmarked := Lexeme.outline_of_long here (by omega)
  have awaits : Awaits start (next + l.text.length) ls
      (List.replicate (next - start) none ++ Lexeme.outlines (l :: ls)) := by
    refine ⟨by omega, ?_, fun m member => sharp m (List.mem_cons_of_mem l member)⟩
    rw [Lexeme.outlines_cons, unmarked, ← List.append_assoc, List.replicate_append_replicate]
    congr 2
    omega
  obtain ⟨rest, zero⟩ := awaits.cut_rest behind (Nat.le_of_lt runsOn)
  obtain ⟨taken, left⟩ := place_of_le (Nat.le_of_lt runsOn) ls
  have shift : Token.shift ⟨next, l.kind, l.text⟩ = l.outline.depth := (Lexeme.shift_of_sharp here next).1
  refine ⟨?_, ?_, rest, ?_⟩
  · simp [Lexeme.place, inside, taken]
  · simp [Lexeme.place, inside, left]
  · rw [zero, Lexeme.place, balanceOf, shift, unmarked, depth_blanks]
    rfl

/-- Cutting the lexemes at an offset cuts the marks there. -/
theorem cut {start next stop : Nat} {ls : List Lexeme} {o : Outline}
    (h : Awaits start next ls o) (behind : start ≤ stop) :
    ∃ here rest next', (Lexeme.place next ls).takeWhile (·.start < stop) = Lexeme.place next here ∧
      (Lexeme.place next ls).dropWhile (·.start < stop) = Lexeme.place next' rest ∧
      Awaits stop next' rest (o.drop (stop - start)) ∧
      Outline.depth (o.take (stop - start)) = balanceOf Token.shift (Lexeme.place next here) := by
  induction ls generalizing start next o with
  | nil =>
    obtain ⟨bound, rfl, -⟩ := h
    refine ⟨[], [], max stop next, rfl, rfl, ⟨Nat.le_max_left _ _, ?_, nofun⟩, ?_⟩
    · simp [Lexeme.outlines]
      omega
    · simp [Lexeme.outlines, List.take_replicate, depth_blanks, Lexeme.place, balanceOf]
  | cons l ls ih =>
    by_cases short : stop ≤ next
    · obtain ⟨taken, left⟩ := place_of_le short (l :: ls)
      obtain ⟨rest, zero⟩ := h.cut_rest behind short
      exact ⟨[], l :: ls, next, taken, left, rest, zero⟩
    · have inside : next < stop := by omega
      by_cases runsOn : stop < next + l.text.length
      · exact ⟨[l], ls, next + l.text.length, h.cut_long behind inside runsOn⟩
      · obtain ⟨bound, rfl, sharp⟩ := h
        have here := (sharp l List.mem_cons_self).1
        have length := l.length_outline
        have shift : Token.shift ⟨next, l.kind, l.text⟩ = l.outline.depth :=
          (Lexeme.shift_of_sharp here next).1
        have awaits : Awaits (next + l.text.length) (next + l.text.length) ls (Lexeme.outlines ls) :=
          ⟨Nat.le_refl _, by simp, fun m member => sharp m (List.mem_cons_of_mem l member)⟩
        obtain ⟨more, rest, next', taken, left, cut, depth⟩ := ih awaits (by omega)
        have front : (List.replicate (next - start) (none : Option Char) ++ l.outline).length =
            next + l.text.length - start := by
          rw [List.length_append, List.length_replicate, length]
          omega
        have size : stop - start = (List.replicate (next - start) (none : Option Char) ++ l.outline).length +
            (stop - (next + l.text.length)) := by omega
        rw [Lexeme.outlines_cons, ← List.append_assoc, size, List.drop_length_add_append,
          List.take_length_add_append]
        refine ⟨l :: more, rest, next', ?_, ?_, cut, ?_⟩
        · simp [Lexeme.place, inside, taken]
        · simp [Lexeme.place, inside, left]
        · rw [Outline.depth_append, Outline.depth_append, depth_blanks, depth, Lexeme.place, balanceOf,
            shift]
          omega

/-- A closing bracket at the head of a line is a token that stands there. -/
theorem closing {start next : Nat} {ls : List Lexeme} {o : Outline} (h : Awaits start next ls o)
    {stop : Nat} (inside : start < stop) :
    (((Lexeme.place next ls).takeWhile (·.start < stop)).any fun t => t.start == start && t.isCloser) =
      o.closesFirst := by
  obtain ⟨bound, rfl, sharp⟩ := h
  have later {p : Nat} (ls : List Lexeme) (apart : start < p) :
      (((Lexeme.place p ls).takeWhile (·.start < stop)).any fun t => t.start == start && t.isCloser) =
        false := by
    refine List.any_eq_false.2 fun t member same => ?_
    have placed := (Lexeme.start_of_mem_place ((List.takeWhile_sublist _).subset member)).1
    have here : t.start = start := by simpa using (Bool.and_eq_true_iff.1 same).1
    omega
  rcases Nat.eq_or_lt_of_le bound with rfl | apart
  · cases ls with
    | nil => simp [Lexeme.place, Lexeme.outlines, Outline.closesFirst]
    | cons l ls =>
      obtain ⟨here, solid⟩ := sharp l List.mem_cons_self
      have length := List.length_pos_iff.2 solid
      have head : Outline.closesFirst (Lexeme.outlines (l :: ls)) = l.outline.closesFirst := by
        obtain ⟨c, r, text⟩ := List.exists_cons_of_ne_nil solid
        simp [Lexeme.outlines, Outline.closesFirst, Lexeme.outline, text]
      rw [Nat.sub_self, List.replicate_zero, List.nil_append, head, ← Lexeme.isCloser_of_sharp here start,
        Lexeme.place, List.takeWhile_cons_of_pos (by simpa using inside), List.any_cons,
        later ls (by omega)]
      simp
  · obtain ⟨k, size⟩ : ∃ k, next - start = k + 1 := ⟨next - start - 1, by omega⟩
    rw [later ls apart, size, List.replicate_succ]
    rfl

end Awaits

/-- The levels of lines by their marks. -/
def markLevels (depth : Int) (o : Outline) : List Text → List (Nat × Text)
  | [] => []
  | l :: ls =>
    ((if Outline.closesFirst o then depth - 1 else depth).toNat, l) ::
      markLevels (depth + Outline.depth (o.take (l.length + 1))) (o.drop (l.length + 1)) ls

/-- **Levels depend on the marks alone.** -/
theorem levelsFrom_place {start next : Nat} {ls : List Lexeme} {o : Outline}
    (h : Awaits start next ls o) (depth : Int) (text : List Text) :
    Nesting.levelsFrom depth start (Lexeme.place next ls) text = markLevels depth o text := by
  induction text generalizing start next ls o depth with
  | nil => rfl
  | cons l text ih =>
    have behind : start < start + l.length + 1 := by omega
    have closing := h.closing behind
    obtain ⟨here, rest, next', taken, left, awaits, balance⟩ := h.cut (Nat.le_of_lt behind)
    have size : start + l.length + 1 - start = l.length + 1 := by omega
    rw [size] at awaits balance
    rw [Nesting.levelsFrom, markLevels, balance]
    simp only [taken] at closing ⊢
    rw [closing, left, ih awaits]

/-- Levels counted line by line. -/
def lineLevels (depth : Int) : List Text → List (Nat × Text)
  | [] => []
  | l :: ls =>
    ((if Outline.closesFirst (marks l) then depth - 1 else depth).toNat, l) ::
      lineLevels (depth + bracketBalance l) ls

theorem lineLevels_append (depth : Int) (ls ms : List Text) : lineLevels depth (ls ++ ms) =
    lineLevels depth ls ++ lineLevels (depth + (ls.map bracketBalance).sum) ms := by
  induction ls generalizing depth with
  | nil => simp [lineLevels]
  | cons l ls ih =>
    rw [List.cons_append, lineLevels, lineLevels, ih, List.map_cons, List.sum_cons, Int.add_assoc]
    rfl

theorem closesFirst_feed (o rest : Outline) :
    Outline.closesFirst (o ++ none :: rest) = Outline.closesFirst o := by
  cases o <;> rfl

theorem Written.joined {ls : List Text} (h : ∀ l ∈ ls, Written l) : Written (joinLines ls) := by
  induction ls with
  | nil => exact .nil
  | cons l ls ih =>
    have first := h l List.mem_cons_self
    cases ls with
    | nil => rwa [joinLines_singleton]
    | cons m ls =>
      have feed : Written ['\n'] := .of_bare (by decide)
      have later := ih fun k member => h k (List.mem_cons_of_mem l member)
      have split : joinLines (l :: m :: ls) = l ++ (['\n'] ++ joinLines (m :: ls)) :=
        joinPieces_cons_cons '\n' l m ls
      exact split ▸ first.append (feed.append later)

/-- The marks of written lines stand one behind the other, with nothing for a line feed. -/
theorem marks_joinLines {l m : Text} {ls : List Text} (h : ∀ k ∈ l :: m :: ls, Written k) :
    marks (joinLines (l :: m :: ls)) = marks l ++ none :: marks (joinLines (m :: ls)) := by
  have feed : Written ['\n'] := .of_bare (by decide)
  have later := Written.joined fun k member => h k (List.mem_cons_of_mem l member)
  have split : joinLines (l :: m :: ls) = l ++ (['\n'] ++ joinLines (m :: ls)) :=
    joinPieces_cons_cons '\n' l m ls
  have blank : marks ['\n'] = [none] := Written.marks_of_bare (by decide)
  rw [split, (h l List.mem_cons_self).marks_append (feed.append later), feed.marks_append later, blank]
  rfl

theorem braceBalance_nil : braceBalance [] = 0 := by
  rw [braceBalance_eq, Written.marks_of_bare (List.forall_mem_nil _)]
  rfl

theorem braceBalance_joinLines {ls : List Text} (h : ∀ l ∈ ls, Written l) :
    braceBalance (joinLines ls) = (ls.map braceBalance).sum := by
  induction ls with
  | nil => exact braceBalance_nil
  | cons l ls ih =>
    cases ls with
    | nil => simp
    | cons m ls =>
      have feed (o : Outline) : none :: o = [none] ++ o := rfl
      have blank : Outline.braceDepth [none] = 0 := rfl
      rw [braceBalance_eq, marks_joinLines h, Outline.braceDepth_append, feed, Outline.braceDepth_append,
        blank, Int.zero_add, ← braceBalance_eq, ← braceBalance_eq,
        ih fun k member => h k (List.mem_cons_of_mem l member), ← List.sum_cons, ← List.map_cons]

theorem markLevels_joinLines (depth : Int) {ls : List Text} (written : ∀ l ∈ ls, Written l) :
    markLevels depth (marks (joinLines ls)) ls = lineLevels depth ls := by
  induction ls generalizing depth with
  | nil => rfl
  | cons l ls ih =>
    cases ls with
    | nil =>
      rw [joinLines_singleton]
      rfl
    | cons m ls =>
      have levels := ih (depth + bracketBalance l) fun k member =>
        written k (List.mem_cons_of_mem l member)
      have size : l.length + 1 = (marks l).length + 1 := by rw [length_marks]
      have front : (marks l ++ none :: marks (joinLines (m :: ls))).take ((marks l).length + 1) =
          marks l ++ [none] := by
        rw [List.take_length_add_append]
        rfl
      have back : (marks l ++ none :: marks (joinLines (m :: ls))).drop ((marks l).length + 1) =
          marks (joinLines (m :: ls)) := by
        rw [List.drop_length_add_append]
        rfl
      have blank : Outline.depth [none] = 0 := rfl
      rw [markLevels, lineLevels, marks_joinLines written, size, front, back, closesFirst_feed,
        Outline.depth_append, blank, Int.add_zero, ← bracketBalance_eq, levels]

/-- **Where every line ends its literals the levels are counted line by line.** -/
theorem levels_of_written (depth : Int) {ls body : List Text}
    (kept : (ls.map trim).filter (· != []) = body) (written : ∀ l ∈ body, Written l) :
    Nesting.levels depth ls = lineLevels depth body := by
  have awaits : Awaits 0 0 (lex .code none (joinLines body)) (marks (joinLines body)) :=
    ⟨Nat.le_refl 0, rfl, fun l member =>
      ⟨lex_sharp .code none _ l member, lex_text_ne_nil .code none _ l member⟩⟩
  rw [Nesting.levels, kept, tokens, levelsFrom_place awaits, markLevels_joinLines depth written]

end Ambient
